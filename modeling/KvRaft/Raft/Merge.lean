import KvRaft.Raft.Access

/-!
# The merge law of AppendEntries

A follower that accepts a request puts the entries of the request into its log.
It goes through the entries one by one, and there are two ways in which this
ends (`Splice`):

* the log holds an entry of the same term for every entry of the request, and
  nothing changes;
* at some entry the log ends, or holds another term.  The log is cut there, and
  the rest of the request follows.

`appendNewEntries_splice` is the induction over the loop.  Everything else is
read off the two cases: what stays, what the request puts there, where the log
ends, and that a repeated request changes nothing.
-/

namespace KvRaft

variable {n : Nat} {C D : Type} {rf rf' : Raft n C D} {p : Nat} {entries : List (Entry C)}

/-! ## The two ends of the loop -/

/-- Behind index `p` the log holds entries with the terms of the first `k`
entries of a request. -/
def AgreesUpTo (rf : Raft n C D) (p : Nat) (entries : List (Entry C)) (k : Nat) : Prop :=
  ∀ j e, j < k → entries[j]? = some e →
    ∃ old, rf.getLog (p + 1 + j) = some old ∧ old.term = e.term

/-- At index `k` the log holds another term than a request behind index `p`. -/
def ConflictAt (rf : Raft n C D) (p : Nat) (entries : List (Entry C)) (k : Nat) : Prop :=
  ∃ j e old, k = p + 1 + j ∧ entries[j]? = some e ∧ rf.getLog k = some old ∧ old.term ≠ e.term

/-- The log after a request behind index `p`. -/
inductive Splice (rf : Raft n C D) (p : Nat) (entries : List (Entry C)) : List (Entry C) → Prop
  /-- Everything is there already. -/
  | same : AgreesUpTo rf p entries entries.length → Splice rf p entries rf.logs
  /-- The log ends before entry `k` of the request, or differs from it. -/
  | cut (k : Nat) : k < entries.length → p + 1 + k ≤ rf.getLen → AgreesUpTo rf p entries k →
      (∀ old e, rf.getLog (p + 1 + k) = some old → entries[k]? = some e → old.term ≠ e.term) →
      Splice rf p entries
        (rf.logs.take (p + 1 + k - rf.lastIncludedIndex) ++ entries.drop k)

/-- One entry that is there already. -/
theorem AgreesUpTo.cons {entry old : Entry C} {rest : List (Entry C)} {k : Nat}
    (hold : rf.getLog (p + 1) = some old) (hterm : old.term = entry.term)
    (h : AgreesUpTo rf (p + 1) rest k) : AgreesUpTo rf p (entry :: rest) (k + 1) := by
  intro j e hj he
  cases j with
  | zero =>
    cases he
    exact ⟨old, hold, hterm⟩
  | succ j =>
    obtain ⟨old', hold', hterm'⟩ := h j e (by omega) he
    exact ⟨old', by rwa [show p + 1 + (j + 1) = p + 1 + 1 + j by omega], hterm'⟩

theorem Splice.cons {entry old : Entry C} {rest logs : List (Entry C)}
    (hold : rf.getLog (p + 1) = some old) (hterm : old.term = entry.term)
    (h : Splice rf (p + 1) rest logs) : Splice rf p (entry :: rest) logs := by
  cases h with
  | same hagree => exact .same (hagree.cons hold hterm)
  | cut k hk hlen hagree hstop =>
    rw [show p + 1 + 1 + k = p + 1 + (k + 1) by omega] at hlen hstop ⊢
    refine .cut (k + 1) ?_ hlen (hagree.cons hold hterm) hstop
    rw [List.length_cons]
    omega

/-- `appendNewEntries` on the entries of a request behind an index that the log
holds. -/
theorem appendNewEntries_splice (hcons : Consecutive p entries) (hlow : rf.lastIncludedIndex ≤ p)
    (hlen : p < rf.getLen) : ∃ logs, Splice rf p entries logs ∧
      rf.appendNewEntries entries = some { rf with logs := logs } := by
  induction entries generalizing p with
  | nil => exact ⟨rf.logs, .same fun j e hj => absurd hj (Nat.not_lt_zero j), rfl⟩
  | cons entry rest ih =>
    have hindex : entry.index = p + 1 := hcons 0 entry rfl
    have hnone : AgreesUpTo rf p (entry :: rest) 0 := fun j e hj => absurd hj (Nat.not_lt_zero j)
    rw [Raft.appendNewEntries, hindex]
    split_ifs with hin
    · obtain ⟨old, hold⟩ := exists_getLog (Nat.le_succ_of_le hlow) hin
      have hindexed : GoSlice.index rf.logs (rf.getPhysicalIndex (p + 1)) = some old := hold
      simp only [Option.bind_eq_bind, hindexed, Option.bind_some]
      split_ifs with hterm
      · -- The first conflict: the log is cut before it.
        refine ⟨_, .cut 0 (Nat.succ_pos _) (Nat.le_of_lt hin) hnone ?_, ?_⟩
        · intro old' e hold' he
          cases he
          cases hold.symm.trans hold'
          exact hterm
        · rw [Raft.getLen] at hin
          rw [GoSlice.takeTo_eq_some _ (k := p + 1 - rf.lastIncludedIndex)
            (by rw [Raft.getPhysicalIndex]; omega) (by omega)]
          rfl
      · obtain ⟨logs, hsplice, happend⟩ := ih hcons.tail (Nat.le_succ_of_le hlow) hin
        exact ⟨logs, hsplice.cons hold (not_not.mp hterm), happend⟩
    · -- The log ends before the entry.
      have hend : p + 1 + 0 = rf.getLen := by omega
      refine ⟨_, .cut 0 (Nat.succ_pos _) (Nat.le_of_eq hend) hnone ?_, ?_⟩
      · intro old e hold
        have := lt_getLen_of_getLog (by omega) hold
        omega
      · rw [List.take_of_length_le (by rw [Raft.getLen] at hend; omega)]
        rfl

/-- A request that is there already changes nothing. -/
theorem appendNewEntries_of_agrees (hcons : Consecutive p entries)
    (hlow : rf.lastIncludedIndex ≤ p) (hlen : p < rf.getLen)
    (h : AgreesUpTo rf p entries entries.length) : rf.appendNewEntries entries = some rf := by
  obtain ⟨logs, hsplice, happend⟩ := appendNewEntries_splice hcons hlow hlen
  cases hsplice with
  | same _ => exact happend
  | cut k hk _ _ hstop =>
    have he := List.getElem?_eq_getElem hk
    obtain ⟨old, hold, hterm⟩ := h k _ hk he
    exact absurd hterm (hstop old _ hold he)

/-! ## What the log holds afterwards -/

/-- A log whose entries carry their indices. -/
def Indexed (rf : Raft n C D) : Prop :=
  ∀ k e, rf.logs[k]? = some e → e.index = rf.lastIncludedIndex + k

/-- `rf'` has the log of `rf` with the entries of a request behind index `p`. -/
structure Merged (rf : Raft n C D) (p : Nat) (entries : List (Entry C)) (rf' : Raft n C D) :
    Prop where
  base : rf'.lastIncludedIndex = rf.lastIncludedIndex
  indexed : Indexed rf'
  /-- What lies up to the previous entry stays. -/
  below : ∀ k, rf.lastIncludedIndex ≤ k → k ≤ p → rf'.getLog k = rf.getLog k
  /-- Each entry of the request has an entry of its term at its place. -/
  request : AgreesUpTo rf' p entries entries.length
  /-- An entry stays where no conflict is at or before its index. -/
  kept : ∀ k old, rf.lastIncludedIndex ≤ k → rf.getLog k = some old →
    (∀ j, j ≤ k → ¬ ConflictAt rf p entries j) → rf'.getLog k = some old
  /-- Without a conflict everything beyond the request stays. -/
  beyond : (∀ j, ¬ ConflictAt rf p entries j) →
    ∀ k, p + entries.length < k → rf'.getLog k = rf.getLog k
  /-- With a conflict the log ends with the request. -/
  ends : (∃ j, ConflictAt rf p entries j) → rf'.getLen = p + entries.length + 1

/-- An instance with another log. -/
theorem getLog_withLogs (rf : Raft n C D) (logs : List (Entry C)) {k : Nat}
    (hk : rf.lastIncludedIndex ≤ k) :
    ({ rf with logs := logs } : Raft n C D).getLog k = logs[k - rf.lastIncludedIndex]? :=
  getLog_eq_getElem? _ hk

/-- A request that is there already conflicts nowhere. -/
theorem AgreesUpTo.not_conflictAt {k : Nat} (h : AgreesUpTo rf p entries k) {i : Nat}
    (hi : i < p + 1 + k) : ¬ ConflictAt rf p entries i := by
  rintro ⟨j, e, old, rfl, he, hold, hne⟩
  obtain ⟨old', hold', hterm⟩ := h j e (by omega) he
  cases hold.symm.trans hold'
  exact hne hterm

section Cut

variable {k : Nat} (hlen : p + 1 + k ≤ rf.getLen)

include hlen

/-- Before the cut the log is the old one. -/
theorem getLog_cut_of_lt {i : Nat} (hi : rf.lastIncludedIndex ≤ i) (hik : i < p + 1 + k) :
    ({ rf with logs := rf.logs.take (p + 1 + k - rf.lastIncludedIndex) ++ entries.drop k } :
      Raft n C D).getLog i = rf.getLog i := by
  rw [Raft.getLen] at hlen
  rw [getLog_withLogs _ _ hi, getLog_eq_getElem? rf hi,
    List.getElem?_append_left (by rw [List.length_take]; omega),
    List.getElem?_take_of_lt (by omega)]

variable (hlow : rf.lastIncludedIndex ≤ p)

include hlow

/-- From the cut on it is the request. -/
theorem getLog_cut_of_le {j : Nat} (hj : k ≤ j) :
    ({ rf with logs := rf.logs.take (p + 1 + k - rf.lastIncludedIndex) ++ entries.drop k } :
      Raft n C D).getLog (p + 1 + j) = entries[j]? := by
  rw [Raft.getLen] at hlen
  have htake : (rf.logs.take (p + 1 + k - rf.lastIncludedIndex)).length =
      p + 1 + k - rf.lastIncludedIndex := by
    rw [List.length_take]
    omega
  rw [getLog_withLogs _ _ (by omega), List.getElem?_append_right (by omega), htake,
    List.getElem?_drop]
  congr 1
  omega

theorem getLen_cut (hk : k ≤ entries.length) :
    ({ rf with logs := rf.logs.take (p + 1 + k - rf.lastIncludedIndex) ++ entries.drop k } :
      Raft n C D).getLen = p + entries.length + 1 := by
  rw [Raft.getLen] at hlen ⊢
  simp only [List.length_append, List.length_take, List.length_drop]
  omega

theorem indexed_cut (hindexed : Indexed rf) (hcons : Consecutive p entries) :
    Indexed { rf with
      logs := rf.logs.take (p + 1 + k - rf.lastIncludedIndex) ++ entries.drop k } := by
  intro i e he
  rw [Raft.getLen] at hlen
  rw [List.getElem?_append] at he
  split_ifs at he with hi
  · rw [List.length_take] at hi
    rw [List.getElem?_take_of_lt (by omega)] at he
    exact hindexed i e he
  · rw [List.length_take] at hi
    rw [List.getElem?_drop, List.length_take] at he
    have := hcons _ e he
    simp only
    omega

end Cut

/-- The log still reaches beyond the previous entry. -/
theorem Splice.lt_getLen {logs : List (Entry C)} (h : Splice rf p entries logs)
    (hlow : rf.lastIncludedIndex ≤ p) (hlen : p < rf.getLen) :
    p < ({ rf with logs := logs } : Raft n C D).getLen := by
  cases h with
  | same _ => exact hlen
  | cut k hk hcut _ _ =>
    rw [getLen_cut hcut hlow (Nat.le_of_lt hk)]
    omega

/-- Up to the previous entry the log is the old one, and behind it the log holds
entries with the terms of the request, each of them taken from the request or
kept. -/
theorem Splice.getLog {logs : List (Entry C)} (h : Splice rf p entries logs)
    (hlow : rf.lastIncludedIndex ≤ p) :
    (∀ i, rf.lastIncludedIndex ≤ i → i ≤ p →
      ({ rf with logs := logs } : Raft n C D).getLog i = rf.getLog i) ∧
    ∀ j e, entries[j]? = some e →
      ∃ e', ({ rf with logs := logs } : Raft n C D).getLog (p + 1 + j) = some e' ∧
        e'.term = e.term ∧ (e' = e ∨ rf.getLog (p + 1 + j) = some e') := by
  cases h with
  | same hagree =>
    refine ⟨fun _ _ _ => rfl, fun j e he => ?_⟩
    obtain ⟨old, hold, hterm⟩ := hagree j e (List.getElem?_eq_some_iff.mp he).1 he
    exact ⟨old, hold, hterm, Or.inr hold⟩
  | cut k _ hlen hagree _ =>
    refine ⟨fun i hi hip => getLog_cut_of_lt hlen hi (by omega), fun j e he => ?_⟩
    rcases Nat.lt_or_ge j k with hjk | hkj
    · obtain ⟨old, hold, hterm⟩ := hagree j e hjk he
      exact ⟨old, (getLog_cut_of_lt hlen (by omega) (by omega)).trans hold, hterm, Or.inr hold⟩
    · exact ⟨e, (getLog_cut_of_le hlen hlow hkj).trans he, rfl, Or.inl rfl⟩

theorem appendNewEntries_getLog (hcons : Consecutive p entries) (hlow : rf.lastIncludedIndex ≤ p)
    (hlen : p < rf.getLen) (h : rf.appendNewEntries entries = some rf') :
    (∀ i, rf.lastIncludedIndex ≤ i → i ≤ p → rf'.getLog i = rf.getLog i) ∧
    ∀ j e, entries[j]? = some e → ∃ e', rf'.getLog (p + 1 + j) = some e' ∧
      e'.term = e.term ∧ (e' = e ∨ rf.getLog (p + 1 + j) = some e') := by
  obtain ⟨logs, hsplice, happend⟩ := appendNewEntries_splice hcons hlow hlen
  cases happend.symm.trans h
  exact hsplice.getLog hlow

/-- Both ends of the loop merge the request into the log. -/
theorem Splice.merged {logs : List (Entry C)} (h : Splice rf p entries logs)
    (hindexed : Indexed rf) (hcons : Consecutive p entries) (hlow : rf.lastIncludedIndex ≤ p) :
    Merged rf p entries { rf with logs := logs } := by
  obtain ⟨hbelow, habove⟩ := h.getLog hlow
  have hrequest : AgreesUpTo { rf with logs := logs } p entries entries.length := by
    intro j e _ he
    obtain ⟨e', he', hterm, _⟩ := habove j e he
    exact ⟨e', he', hterm⟩
  cases h with
  | same hagree =>
    exact
      { base := rfl
        indexed := hindexed
        below := hbelow
        request := hrequest
        kept := fun _ _ _ hold _ => hold
        beyond := fun _ _ _ => rfl
        ends := by
          rintro ⟨i, j, e, old, rfl, he, hrest⟩
          have hj := (List.getElem?_eq_some_iff.mp he).1
          exact absurd ⟨j, e, old, rfl, he, hrest⟩ (hagree.not_conflictAt (by omega)) }
  | cut k hk hlen hagree hstop =>
    -- Where the log reaches the cut, it conflicts there.
    have hconflict : ∀ old, rf.getLog (p + 1 + k) = some old →
        ConflictAt rf p entries (p + 1 + k) := fun old hold =>
      ⟨k, entries[k], old, rfl, List.getElem?_eq_getElem hk, hold,
        hstop old _ hold (List.getElem?_eq_getElem hk)⟩
    have hreach : p + 1 + k < rf.getLen → ConflictAt rf p entries (p + 1 + k) := by
      intro hlt
      obtain ⟨old, hold⟩ := exists_getLog (by omega) hlt
      exact hconflict old hold
    refine
      { base := rfl
        indexed := indexed_cut hlen hlow hindexed hcons
        below := hbelow
        request := hrequest
        kept := ?_
        beyond := ?_
        ends := fun _ => getLen_cut hlen hlow (Nat.le_of_lt hk) }
    · intro i old hi hold hnone
      rcases Nat.lt_or_ge i (p + 1 + k) with hlt | hge
      · rwa [getLog_cut_of_lt hlen hi hlt]
      · have := lt_getLen_of_getLog hi hold
        exact absurd (hreach (by omega)) (hnone _ hge)
    · intro hnone i hi
      have hend : rf.getLen ≤ p + 1 + k := by
        by_contra hlt
        exact hnone _ (hreach (by omega))
      obtain ⟨j, rfl⟩ : ∃ j, i = p + 1 + j := ⟨i - (p + 1), by omega⟩
      rw [getLog_cut_of_le hlen hlow (by omega), List.getElem?_eq_none (by omega)]
      rw [Raft.getLen] at hend
      rw [getLog_eq_getElem? rf (by omega), List.getElem?_eq_none (by omega)]

/-! ## Requests -/

/-- The log holds the previous entry of a request. -/
def HasPrev (rf : Raft n C D) (args : AppendEntriesArgs n C) : Prop :=
  rf.lastIncludedIndex ≤ args.prevLogIndex ∧ args.prevLogIndex < rf.getLen ∧
    ∃ e, rf.getLog args.prevLogIndex = some e ∧ e.term = args.prevLogTerm

/-- A request of the same term at the same place, with the entries or with the
first of them. -/
structure Repeats (args again : AppendEntriesArgs n C) : Prop where
  term : again.term = args.term
  prevLogIndex : again.prevLogIndex = args.prevLogIndex
  entries : again.entries <+: args.entries

/-- Such a request with the same previous term. -/
structure RepeatsPrev (args again : AppendEntriesArgs n C) : Prop extends Repeats args again where
  prevLogTerm : again.prevLogTerm = args.prevLogTerm

/-- What `AppendEntries` does with a request that is not behind.  `Again` says
which later requests change nothing. -/
structure MergeLaw (Again : AppendEntriesArgs n C → AppendEntriesArgs n C → Prop)
    (rf : Raft n C D) (args : AppendEntriesArgs n C) (rf' : Raft n C D)
    (reply : AppendEntriesReply) : Prop where
  success : reply.success = true ↔ HasPrev rf args
  failure : reply.success = false → rf'.logs = rf.logs ∧
    rf'.lastIncludedIndex = rf.lastIncludedIndex ∧ rf'.commitIndex = rf.commitIndex
  merged : reply.success = true → Merged rf args.prevLogIndex args.entries rf'
  again : reply.success = true → ∀ args', Again args args' → ∃ rf'' reply',
    rf'.appendEntries args' = some (rf'', reply') ∧ reply'.success = true ∧
      rf''.logs = rf'.logs ∧ rf''.lastIncludedIndex = rf'.lastIncludedIndex

/-- The check of `AppendEntries` on an instance that follows. -/
theorem hasPrev_iff {args : AppendEntriesArgs n C} : HasPrev rf args ↔
    (rf.follow args.term args.leaderId).handleConsistencyConflict args = some none := by
  constructor
  · rintro ⟨hlow, hhigh, e, he, hterm⟩
    rcases handleConsistencyConflict_cases (rf.follow args.term args.leaderId) args with
      ⟨hlt, _⟩ | ⟨_, ⟨hle, _⟩ | ⟨e', he', ⟨_, hnone⟩ | ⟨hne, _⟩⟩⟩
    · exact absurd hlow (Nat.not_le_of_lt hlt)
    · exact absurd hhigh (Nat.not_lt_of_le hle)
    · exact hnone
    · cases he.symm.trans he'
      exact absurd hterm hne
  · intro h
    have hnone := handleConsistencyConflict_none h
    exact hnone

/-- A request whose previous entry is there, up to the merge. -/
theorem appendEntries_of_hasPrev {args : AppendEntriesArgs n C} {rf₁ : Raft n C D}
    (hterm : rf.currentTerm ≤ args.term) (hprev : HasPrev rf args)
    (happend : (rf.follow args.term args.leaderId).appendNewEntries args.entries = some rf₁) :
    rf.appendEntries args = some ((rf₁.advanceCommitIndex args.leaderCommit).persist,
      ⟨rf.currentTerm, true, 0, some 0⟩) := by
  rw [appendEntries_eq (Nat.not_lt_of_le hterm), hasPrev_iff.mp hprev]
  simp only [Option.bind_some, happend]

/-- The rest of `AppendEntries` does not touch the log. -/
theorem Merged.of_follow {term : Nat} {leader : Fin n} {rf₁ : Raft n C D}
    (h : Merged (rf.follow term leader) p entries rf₁) (leaderCommit : Nat) :
    Merged rf p entries (rf₁.advanceCommitIndex leaderCommit).persist := by
  rw [persist_keeps, advanceCommitIndex_eq]
  exact ⟨h.base, h.indexed, h.below, h.request, h.kept, h.beyond, h.ends⟩

/-- After a request its previous entry is still there, and so are its entries. -/
theorem Merged.again {args args' : AppendEntriesArgs n C}
    (h : Merged rf args.prevLogIndex args.entries rf') (hprev : HasPrev rf args)
    (hcons : Consecutive args.prevLogIndex args.entries) (hterm : rf'.currentTerm = args.term)
    (hagain : RepeatsPrev args args') : ∃ rf'' reply,
      rf'.appendEntries args' = some (rf'', reply) ∧ reply.success = true ∧
        rf''.logs = rf'.logs ∧ rf''.lastIncludedIndex = rf'.lastIncludedIndex := by
  obtain ⟨hlow, _, e, he, heterm⟩ := hprev
  obtain ⟨tail, htail⟩ := hagain.entries
  have hlow' : rf'.lastIncludedIndex ≤ args'.prevLogIndex := by
    rw [h.base, hagain.prevLogIndex]
    exact hlow
  have he' : rf'.getLog args'.prevLogIndex = some e := by
    rw [hagain.prevLogIndex, h.below _ hlow (Nat.le_refl _)]
    exact he
  have hprev' : HasPrev rf' args' :=
    ⟨hlow', lt_getLen_of_getLog hlow' he', e, he', heterm.trans hagain.prevLogTerm.symm⟩
  have hinit : ∀ (j : Nat) (x : Entry C), args'.entries[j]? = some x →
      args.entries[j]? = some x := by
    intro j x hx
    rw [← htail, List.getElem?_append_left (List.getElem?_eq_some_iff.mp hx).1]
    exact hx
  have hcons' : Consecutive args'.prevLogIndex args'.entries := by
    intro j x hx
    rw [hagain.prevLogIndex]
    exact hcons j x (hinit j x hx)
  have hagree : AgreesUpTo (rf'.follow args'.term args'.leaderId) args'.prevLogIndex args'.entries
      args'.entries.length := by
    intro j x _ hx
    have hx' := hinit j x hx
    rw [hagain.prevLogIndex]
    exact h.request j x (List.getElem?_eq_some_iff.mp hx').1 hx'
  refine ⟨_, _, appendEntries_of_hasPrev (by rw [hterm, hagain.term]) hprev'
    (appendNewEntries_of_agrees hcons' hlow' hprev'.2.1 hagree), rfl, ?_⟩
  rw [persist_keeps, advanceCommitIndex_eq]
  exact ⟨rfl, rfl⟩

/-- The merge law, for every instance whose entries carry their indices and
every request with consecutive entries that is not behind. -/
theorem appendEntries_mergeLaw {args : AppendEntriesArgs n C} (hindexed : Indexed rf)
    (hterm : rf.currentTerm ≤ args.term) (hcons : Consecutive args.prevLogIndex args.entries) :
    ∃ rf' reply, rf.appendEntries args = some (rf', reply) ∧
      MergeLaw RepeatsPrev rf args rf' reply := by
  by_cases hprev : HasPrev rf args
  · obtain ⟨logs, hsplice, happend⟩ := appendNewEntries_splice hcons
      (show (rf.follow args.term args.leaderId).lastIncludedIndex ≤ _ from hprev.1) hprev.2.1
    have hmerged : Merged rf args.prevLogIndex args.entries _ :=
      (hsplice.merged hindexed hcons hprev.1).of_follow args.leaderCommit
    refine ⟨_, _, appendEntries_of_hasPrev hterm hprev happend,
      { success := ⟨fun _ => hprev, fun _ => rfl⟩
        failure := fun h => by cases h
        merged := fun _ => hmerged
        again := fun _ args' hagain => hmerged.again hprev hcons ?_ hagain }⟩
    rw [persist_keeps, advanceCommitIndex_eq]
    rfl
  · -- The check finds a conflict, and only the term and the role change.
    obtain ⟨conflict, hconflict⟩ :=
      exists_handleConsistencyConflict (rf.follow args.term args.leaderId) args
    obtain _ | ⟨index, term⟩ := conflict
    · exact absurd (hasPrev_iff.mpr hconflict) hprev
    refine ⟨(rf.follow args.term args.leaderId).persist, ⟨rf.currentTerm, false, index, term⟩, ?_,
      { success := ⟨fun h => (by cases h), fun h => absurd h hprev⟩
        failure := fun _ => ?_
        merged := fun h => by cases h
        again := fun h => by cases h }⟩
    · rw [appendEntries_eq (Nat.not_lt_of_le hterm), hconflict]
      rfl
    · rw [persist_keeps]
      exact ⟨rfl, rfl, rfl⟩

/-! ## A conflict above a snapshot -/

/-- A follower of term 2 with a snapshot of index 1 and two entries of term 1. -/
def conflictFollower : Raft 3 Nat Nat :=
  { Raft.blank node0 .empty with
    currentTerm := 2
    logs := [⟨1, 1, none⟩, ⟨2, 1, some 20⟩, ⟨3, 1, some 30⟩]
    commitIndex := 1
    lastIncludedIndex := 1
    lastIncludedTerm := 1 }

/-- The leader of term 2 has another entry at index 3. -/
def conflictRequest : AppendEntriesArgs 3 Nat :=
  { term := 2
    leaderId := node1
    prevLogIndex := 2
    prevLogTerm := 1
    entries := [⟨3, 2, some 31⟩]
    leaderCommit := 2 }

theorem conflictFollower_indexed : Indexed conflictFollower := by
  intro k e he
  rcases k with _ | _ | _ | k
  · cases he
    rfl
  · cases he
    rfl
  · cases he
    rfl
  · simp [conflictFollower] at he

theorem conflictRequest_consecutive :
    Consecutive conflictRequest.prevLogIndex conflictRequest.entries := by
  intro k e he
  rcases k with _ | k
  · cases he
    rfl
  · simp [conflictRequest] at he

theorem conflictRequest_mergeLaw : conflictFollower.currentTerm ≤ conflictRequest.term ∧
    ∃ rf' reply, conflictFollower.appendEntries conflictRequest = some (rf', reply) ∧
      MergeLaw RepeatsPrev conflictFollower conflictRequest rf' reply :=
  ⟨by decide, appendEntries_mergeLaw conflictFollower_indexed (by decide)
    conflictRequest_consecutive⟩

/-- A later request of this term at this place is refused when it names another
term for the previous entry. -/
theorem otherPrevTerm_refused :
    Indexed conflictFollower ∧ conflictFollower.currentTerm ≤ conflictRequest.term ∧
      Consecutive conflictRequest.prevLogIndex conflictRequest.entries ∧
      ∀ rf' reply, conflictFollower.appendEntries conflictRequest = some (rf', reply) →
        ¬ MergeLaw Repeats conflictFollower conflictRequest rf' reply := by
  refine ⟨conflictFollower_indexed, by decide, conflictRequest_consecutive, ?_⟩
  intro rf' reply h hlaw
  have hsuccess : (conflictFollower.appendEntries conflictRequest).map (·.2.success) =
      some true := rfl
  have hrefused : (conflictFollower.appendEntries conflictRequest).bind (fun r =>
      (r.1.appendEntries { conflictRequest with prevLogTerm := 2 }).map (·.2.success)) =
        some false := rfl
  rw [h] at hsuccess hrefused
  obtain ⟨rf'', reply', h', hagain, _⟩ := hlaw.again (Option.some.inj hsuccess)
    { conflictRequest with prevLogTerm := 2 } ⟨rfl, rfl, List.prefix_refl _⟩
  rw [Option.bind_some, h', Option.map_some, hagain] at hrefused
  cases hrefused

end KvRaft
