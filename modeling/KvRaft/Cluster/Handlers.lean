import KvRaft.Cluster.NodeSteps
import KvRaft.Raft.Inversion

/-!
# What the handlers do

One lemma for each handler of the source, under the simulation relation.  Each
says that the handler does not panic, that what it does is a sequence of moves
of its own member, that the instance is related to its member afterwards with
its memory on disk (`Handled`), and that the reply is one that the history
supports.
-/

namespace KvRaft

open Consensus

variable {n : Nat} {C D : Type} {Φ : Log (Option C) → Option D → Prop}
variable {a a' : Abs n C} {i : Fin n} {rf rf' : Raft n C D} {rpc : Rpc n C D}

/-- The handler took the instance from `rf` to `rf'` and its member from `a`
to `a'`. -/
structure Handled (Φ : Log (Option C) → Option D → Prop) (a a' : Abs n C) (i : Fin n)
    (rf rf' : Raft n C D) : Prop where
  acts : MemberMoves i a a'
  node : NodeSim Φ a' i rf'
  quiet : Quiet rf rf'

theorem Handled.refl (h : NodeSim Φ a i rf) : Handled Φ a a i rf rf :=
  ⟨.refl i a, h, .refl rf⟩

/-! ## Terms -/

/-- A higher term makes the instance a follower. -/
theorem retire_handled (hI : a.Inv) (h : NodeSim Φ a i rf) {t : Nat} (ht : rf.currentTerm < t) :
    ∃ a', Handled Φ a a' i rf
      { rf with currentTerm := t, votedFor := none, state := .follower }.persist := by
  obtain ⟨hacts, hcore⟩ := h.toNodeCore.retire hI (Or.inl ht) rf.currentLeader
  refine ⟨_, hacts, hcore.persist, Quiet.trans ?_ (.persist _)⟩
  exact ⟨⟨Nat.le_of_lt ht, Nat.le_refl _, Nat.le_refl _, Nat.le_refl _⟩, rfl,
    fun hc => by simp at hc⟩

theorem handleHigherTerm_cases (hI : a.Inv) (h : NodeSim Φ a i rf) (t : Nat) :
    (t ≤ rf.currentTerm ∧ rf.handleHigherTerm t = (rf, false)) ∨
      ∃ rf' a', rf.handleHigherTerm t = (rf', true) ∧ Handled Φ a a' i rf rf' := by
  unfold Raft.handleHigherTerm
  split_ifs with ht
  · obtain ⟨a', ha'⟩ := retire_handled hI h ht
    exact Or.inr ⟨_, a', rfl, ha'⟩
  · exact Or.inl ⟨Nat.le_of_not_lt ht, rfl⟩

/-! ## Votes -/

theorem requestVote_refines (hI : a.Inv) (h : NodeSim Φ a i rf) {args : RequestVoteArgs n}
    (hargs : rpc.args = .requestVote args) (hdst : rpc.dst = i) (hrpc : RpcOk Φ a rpc) :
    ∃ rf' reply a', rf.requestVote args = some (rf', reply) ∧ Handled Φ a a' i rf rf' ∧
      ReplyOk a' rpc (.requestVote reply) := by
  obtain ⟨hcid, l, hl, hidx, hlast⟩ := (rpcOk_requestVote hargs).mp hrpc
  have hno : ∀ {b : Abs n C} {t}, ReplyOk b rpc (.requestVote ⟨t, false⟩) :=
    (replyOk_requestVote hargs).mpr fun hg => by simp at hg
  unfold Raft.requestVote
  by_cases hlt : args.term < rf.currentTerm
  · rw [if_pos hlt]
    exact ⟨rf, _, a, rfl, .refl h, hno⟩
  rw [if_neg hlt]
  -- A request of a higher term opens a new term without a vote.
  obtain ⟨rf₁, hrf₁, a₁, hacts, hcore, hterm, hquiet⟩ :
      ∃ rf₁, (if args.term > rf.currentTerm then
          { rf with state := .follower, currentTerm := args.term, votedFor := none }
        else rf) = rf₁ ∧ ∃ a₁, MemberMoves i a a₁ ∧ NodeCore Φ a₁ i rf₁ ∧
          rf₁.currentTerm = args.term ∧ Quiet rf rf₁ := by
    refine ⟨_, rfl, ?_⟩
    split_ifs with hgt
    · obtain ⟨hacts, hcore⟩ := h.toNodeCore.retire hI (Or.inl hgt) rf.currentLeader
      exact ⟨_, hacts, hcore, rfl, ⟨Nat.le_of_lt hgt, Nat.le_refl _, Nat.le_refl _,
        Nat.le_refl _⟩, rfl, fun hc => by simp at hc⟩
    · exact ⟨a, .refl i a, h.toNodeCore, by omega, .refl rf⟩
  obtain ⟨hI₁, hx₁⟩ := hacts.inv hI
  simp only [hrf₁, isLogUpToDate_spec hcore.repr, Option.bind_eq_bind, Option.bind_some,
    decide_eq_true_eq]
  split_ifs with hvote
  · have hcand : a₁.cand (a₁.term i) args.candidateId = some l := by
      rw [hcore.term, hterm, hcid]
      exact hx₁.cand hl
    have hup : UpToDate l (a₁.log i) := by
      rw [UpToDate, ← hlast, ← hidx]
      exact hvote.2
    have hgrant := MemberMoves.grant hcand (by rw [hcore.vote]; exact hvote.1) hup
    refine ⟨_, _, _, rfl, ⟨hacts.trans hgrant, (hcore.grant hI₁ args.candidateId).persist,
      (hquiet.trans ?_).trans (.persist _)⟩, ?_⟩
    · exact .of_progress rfl
    · rw [replyOk_requestVote hargs]
      exact fun _ => Or.inr ⟨by rw [hcore.term, hterm], hdst, hcid.symm⟩
  · exact ⟨_, _, a₁, rfl, ⟨hacts, hcore.persist, hquiet.trans (.persist _)⟩, hno⟩

/-! ## Entries -/

theorem follow_core (hI : a.Inv) (h : NodeSim Φ a i rf) {t : Nat} (ht : rf.currentTerm ≤ t)
    (leader : Fin n) : ∃ x, MemberMoves i a (a.retire i t x) ∧
      NodeCore Φ (a.retire i t x) i (rf.follow t leader) ∧ Quiet rf (rf.follow t leader) := by
  have hor : rf.currentTerm < t ∨ rf.currentTerm = t ∧
      rf.votedFor = (if t > rf.currentTerm then none else rf.votedFor) := by
    rcases Nat.lt_or_ge rf.currentTerm t with hlt | hge
    · exact Or.inl hlt
    · exact Or.inr ⟨by omega, by rw [if_neg (by omega)]⟩
  obtain ⟨hacts, hcore⟩ := h.toNodeCore.retire hI hor (some leader)
  exact ⟨_, hacts, hcore, ⟨ht, Nat.le_refl _, Nat.le_refl _, Nat.le_refl _⟩, rfl,
    fun hc => by simp [Raft.follow] at hc⟩

/-- What an instance knows to be chosen is in the log of its term's leader. -/
theorem NodeCore.commit_le_tlog (hI : a.Inv) (h : NodeCore Φ a i rf)
    (hlead : a.leader rf.currentTerm ≠ none) :
    rf.commitIndex ≤ (a.tlog rf.currentTerm).length ∧
      (a.log i).take rf.commitIndex <+: a.tlog rf.currentTerm := by
  have hpre := State.chosen_prefix_tlog hI h.chosen (Nat.le_refl _) hlead
  have hlen := hpre.length_le
  rw [h.length_take_commit] at hlen
  exact ⟨hlen, hpre⟩

/-- The log of an instance and the log of its term's leader match. -/
theorem take_eq_of_termAt (hI : a.Inv) {t : Nat} (hlead : a.leader t ≠ none) {k : Nat}
    (hk : k ≤ (a.log i).length) (hk' : k ≤ (a.tlog t).length)
    (h : termAt (a.log i) k = termAt (a.tlog t) k) : (a.log i).take k = (a.tlog t).take k :=
  State.valid_matching (hI.log_valid i) (hI.tlog_valid hlead) hk hk' h

/-- The commit index moves to the leader's when the log covers it. -/
theorem advanceCommitIndex_core (h : NodeCore Φ a i rf) {k : Nat} (hk : k ≤ (a.log i).length)
    (hch : a.Chosen ((a.log i).take k) rf.currentTerm) :
    NodeCore Φ a i (rf.advanceCommitIndex k) ∧ Quiet rf (rf.advanceCommitIndex k) := by
  rw [Raft.advanceCommitIndex, h.repr.getLen, Nat.add_sub_cancel]
  split_ifs with hadv
  · have hmin : (if k < (a.log i).length then k else (a.log i).length) = k := by
      split_ifs <;> omega
    simp only [hmin]
    exact ⟨h.commit (Nat.le_of_lt hadv) hk hch,
      ⟨Nat.le_refl _, Nat.le_refl _, Nat.le_of_lt hadv, Nat.le_refl _⟩, rfl,
      fun hc => ⟨hc, rfl⟩⟩
  · exact ⟨h, .refl rf⟩

theorem appendEntries_refines (hI : a.Inv) (h : NodeSim Φ a i rf)
    {args : AppendEntriesArgs n C} (hargs : rpc.args = .appendEntries args)
    (hdst : rpc.dst = i) (hrpc : RpcOk Φ a rpc) :
    ∃ rf' reply a', rf.appendEntries args = some (rf', reply) ∧ Handled Φ a a' i rf rf' ∧
      ReplyOk a' rpc (.appendEntries reply) := by
  obtain ⟨hlead, hlen, hent, hprev, hlc, hch⟩ := (rpcOk_appendEntries hargs).mp hrpc
  by_cases hlt : args.term < rf.currentTerm
  · unfold Raft.appendEntries
    rw [if_pos hlt]
    refine ⟨rf, _, a, rfl, .refl h, (replyOk_appendEntries hargs).mpr ⟨fun hs => ?_, ?_⟩⟩
    · simp at hs
    · exact fun _ => Or.inl hlt
  rw [appendEntries_eq hlt]
  obtain ⟨x, hacts, hcore, hquiet⟩ := follow_core hI h (Nat.le_of_not_lt hlt) args.leaderId
  obtain ⟨hI₁, hx₁⟩ := hacts.inv hI
  generalize hrf₁ : rf.follow args.term args.leaderId = rf₁ at hcore hquiet ⊢
  have hterm : rf₁.currentTerm = args.term := by rw [← hrf₁, Raft.follow]
  have hstate : rf₁.state = .follower := by rw [← hrf₁, Raft.follow]
  have hne : (a.retire i args.term x).leader rf₁.currentTerm ≠ none := by
    rw [hterm, hx₁.leader hlead]
    exact Option.some_ne_none _
  have htlog : (a.retire i args.term x).tlog rf₁.currentTerm = a.tlog args.term := by
    rw [hterm, State.retire]
  rcases handleConsistencyConflict_spec hcore.repr args with
    ⟨hsnap, hpl, hpt, hok⟩ | ⟨index, term, hconf, hbound⟩
  · -- The previous entry matches, so the logs agree up to it.
    have hmatch := fun k hk hk' ht => take_eq_of_termAt (i := i) (k := k) hI₁ hne hk hk' ht
    rw [htlog] at hmatch
    obtain ⟨c, _, happ, _⟩ := appendNewEntries_spec hcore.repr
      (((a.tlog args.term).drop args.prevLogIndex).take args.entries.length)
      args.prevLogIndex hsnap hpl
    rw [← hent, merge_eq_adopt hmatch args.entries.length args.prevLogIndex hpl hlen
      (hmatch _ hpl (by omega) (hpt.trans hprev))] at happ
    obtain ⟨hacc, hlog, hcore₂⟩ := hcore.accept
      (l := adopt _ ((a.tlog args.term).take (args.prevLogIndex + args.entries.length)))
      hI₁ hstate hne (htlog ▸ hlen) (by rw [htlog]) c
    have hpre : (a.tlog args.term).take (args.prevLogIndex + args.entries.length) <+:
        ((a.retire i args.term x).accept i (args.prevLogIndex + args.entries.length)).log i :=
      hlog ▸ prefix_adopt_self _ _
    have hplen := hpre.length_le
    rw [List.length_take, Nat.min_eq_left hlen] at hplen
    -- The new commit index is a chosen part of what was just copied.
    obtain ⟨hcore₃, hquiet₃⟩ := advanceCommitIndex_core (k := args.leaderCommit) hcore₂
      (by omega) (by
        rw [take_of_isPrefix hpre (by rw [List.length_take]; omega), List.take_take,
          Nat.min_eq_left hlc]
        exact hch.mono hI ((hacts.trans hacc).inv hI).2 (Nat.le_of_eq hterm.symm))
    rw [hok, Option.bind_some, happ, Option.bind_some]
    refine ⟨_, _, _, rfl, ⟨hacts.trans hacc, hcore₃.persist,
      hquiet.trans (Quiet.trans ?_ (hquiet₃.trans (.persist _)))⟩, ?_⟩
    · exact .of_progress rfl
    · rw [replyOk_appendEntries hargs]
      exact ⟨fun _ => Or.inr ⟨by rw [hcore.term, hterm], hdst, rfl⟩, fun hs => by simp at hs⟩
  · rw [hconf, Option.bind_some]
    refine ⟨_, _, _, rfl, ⟨hacts, hcore.persist, hquiet.trans (.persist _)⟩, ?_⟩
    rw [replyOk_appendEntries hargs]
    refine ⟨fun hs => by simp at hs, fun _ => Or.inr ?_⟩
    -- The snapshot of the instance is chosen, so the leader's log covers it.
    have hcl := (hcore.commit_le_tlog hI₁ hne).1
    have hs := hcore.snapLe
    rw [htlog] at hcl
    show index ≤ (a.tlog args.term).length + 1
    omega

/-! ## Snapshots -/

theorem heed_sim (hI : a.Inv) (h : NodeSim Φ a i rf) {t : Nat} (ht : rf.currentTerm ≤ t)
    (leader : Fin n) : ∃ x, MemberMoves i a (a.retire i t x) ∧
      NodeSim Φ (a.retire i t x) i (rf.heed t leader) ∧ Quiet rf (rf.heed t leader) ∧
      (rf.heed t leader).currentTerm = t := by
  obtain ⟨x, hacts, hcore, hquiet⟩ := follow_core hI h ht leader
  refine ⟨x, hacts, ?_⟩
  unfold Raft.heed Raft.installSnapshotTerm
  split_ifs with hgt
  · have hsim := hcore.persist
    rw [Raft.persist_eq hcore.alive hcore.noFault, Raft.follow, if_pos hgt] at hsim
    rw [Raft.persist_eq (by exact h.alive) (by exact h.noFault)]
    exact ⟨hsim, ⟨⟨ht, Nat.le_refl _, Nat.le_refl _, Nat.le_refl _⟩, rfl,
      fun hc => by simp at hc⟩, rfl⟩
  · have heq : t = rf.currentTerm := by omega
    subst heq
    rw [Raft.follow, if_neg (Nat.lt_irrefl _)] at hcore hquiet
    exact ⟨⟨hcore, h.durable⟩, hquiet, rfl⟩

/-- The log of a follower that takes over a snapshot.  Either it holds the
slots of the snapshot already, or it is cut down to them. -/
theorem truncateLogWithSnapshot_core (hI : a.Inv) (h : NodeCore Φ a i rf)
    (hlead : a.leader rf.currentTerm ≠ none) {index : Nat}
    (hidx : rf.lastIncludedIndex < index) (hlen : index ≤ (a.tlog rf.currentTerm).length) :
    ∃ c, rf.truncateLogWithSnapshot index (termAt (a.tlog rf.currentTerm) index) =
      some { rf with
        logs := stored index (adopt (a.log i) ((a.tlog rf.currentTerm).take index)) c } := by
  have hpre : (a.tlog rf.currentTerm).take index <+: a.tlog rf.currentTerm :=
    List.take_prefix _ _
  have htake : ((a.tlog rf.currentTerm).take index).length = index := by
    rw [List.length_take, Nat.min_eq_left hlen]
  rcases truncateLogWithSnapshot_spec h.repr (termAt (a.tlog rf.currentTerm) index) hidx with
    ⟨hle, hterm, c, heq⟩ | ⟨hnot, heq⟩
  · refine ⟨c, ?_⟩
    rw [heq, adopt, if_pos]
    rw [← take_eq_of_termAt hI hlead hle hlen hterm]
    exact List.take_prefix _ _
  · refine ⟨none, ?_⟩
    rw [heq, adopt, if_neg]
    · have hstored := stored_length ((a.tlog rf.currentTerm).take index) none
      rw [lastTerm, htake, termAt_of_isPrefix hpre (Nat.le_of_eq htake.symm)] at hstored
      rw [hstored]
    · intro hp
      apply hnot
      have hplen := hp.length_le
      rw [htake] at hplen
      refine ⟨hplen, ?_⟩
      rw [← termAt_of_isPrefix hp (Nat.le_of_eq htake.symm),
        termAt_of_isPrefix hpre (Nat.le_of_eq htake.symm)]

/-- A follower takes over a snapshot: it accepts the slots, commits them and
replaces them by the snapshot. -/
theorem install_core (hI : a.Inv) (h : NodeCore Φ a i rf) (hf : rf.state = .follower)
    (hlead : a.leader rf.currentTerm ≠ none) {index : Nat}
    (hlen : index ≤ (a.tlog rf.currentTerm).length)
    (hch : a.Chosen ((a.tlog rf.currentTerm).take index) rf.currentTerm) {data : Option D}
    (hdata : Φ ((a.tlog rf.currentTerm).take index) data) (c : Option C)
    (raftState : RaftState n C) :
    MemberMoves i a (a.accept i index) ∧ NodeCore Φ (a.accept i index) i
      { rf with
        logs := stored index (adopt (a.log i) ((a.tlog rf.currentTerm).take index)) c
        lastIncludedIndex := index
        lastIncludedTerm := termAt (a.tlog rf.currentTerm) index
        commitIndex := if index > rf.commitIndex then index else rf.commitIndex
        persister := rf.persister.save raftState data } := by
  obtain ⟨hacc, hlog, hcore⟩ := h.accept hI hf hlead hlen rfl none
  obtain ⟨hI', hx⟩ := hacc.inv hI
  refine ⟨hacc, ?_⟩
  have hpre := prefix_adopt_self (a.log i) ((a.tlog rf.currentTerm).take index)
  have htlen : ((a.tlog rf.currentTerm).take index).length = index := by
    rw [List.length_take, Nat.min_eq_left hlen]
  rw [← hlog] at hpre
  have hplen := hpre.length_le
  rw [htlen] at hplen
  have htake := take_of_isPrefix hpre (k := index) (by rw [htlen])
  rw [List.take_take, Nat.min_self] at htake
  have hcommit := hcore.commit (k := if index > rf.commitIndex then index else rf.commitIndex)
    (by simp only; split_ifs <;> omega) (by split_ifs; exacts [hplen, hcore.commitLe]) (by
      split_ifs
      · rw [htake]
        exact hch.mono hI hx (Nat.le_refl _)
      · exact hcore.chosen)
  have hcompact := hcommit.compact (k := index) (d := data)
    (by simp only; split_ifs <;> omega) (by rw [htake]; exact hdata) c raftState
  rw [← termAt_of_isPrefix hpre (by rw [htlen]), hlog,
    termAt_of_isPrefix (List.take_prefix _ _) (by rw [htlen])] at hcompact
  exact hcompact

theorem installSnapshot_refines (hI : a.Inv) (h : NodeSim Φ a i rf)
    {args : InstallSnapshotArgs n D} (hargs : rpc.args = .installSnapshot args)
    (hdst : rpc.dst = i) (hrpc : RpcOk Φ a rpc) :
    ∃ rf' reply a', rf.installSnapshot args = some (rf', reply) ∧ Handled Φ a a' i rf rf' ∧
      ReplyOk a' rpc (.installSnapshot reply) := by
  obtain ⟨hlead, hlen, hlit, hch, hdata⟩ := (rpcOk_installSnapshot hargs).mp hrpc
  by_cases hlt : args.term < rf.currentTerm
  · rw [Raft.installSnapshot, if_pos hlt]
    exact ⟨rf, _, a, rfl, .refl h, (replyOk_installSnapshot hargs).mpr (Or.inl hlt)⟩
  rw [installSnapshot_eq hlt]
  obtain ⟨x, hacts, hsim, hquiet, hterm⟩ := heed_sim hI h (Nat.le_of_not_lt hlt) args.leaderId
  obtain ⟨hI₁, hx₁⟩ := hacts.inv hI
  have hstate : (rf.heed args.term args.leaderId).state = .follower := rfl
  generalize rf.heed args.term args.leaderId = rf₁ at hsim hquiet hterm hstate ⊢
  generalize ha₁ : a.retire i args.term x = a₁ at hacts hsim hI₁ hx₁
  have hne : a₁.leader rf₁.currentTerm ≠ none := by
    rw [hterm, hx₁.leader hlead]
    exact Option.some_ne_none _
  have htlog : a₁.tlog rf₁.currentTerm = a.tlog args.term := by
    rw [hterm, ← ha₁, State.retire]
  rw [← htlog] at hlen hlit hch hdata
  have hack : ReplyOk (a₁.accept i args.lastIncludedIndex) rpc
      (.installSnapshot ⟨rf.currentTerm⟩) := by
    rw [replyOk_installSnapshot hargs]
    exact Or.inr (Or.inr ⟨by rw [hsim.term, hterm], hdst, rfl⟩)
  by_cases hold : args.lastIncludedIndex ≤ rf₁.lastIncludedIndex
  · -- The own snapshot reaches further, so nothing is taken over.
    rw [if_pos hold]
    obtain ⟨c, hlogs⟩ := hsim.repr.logs
    have hsnap := hsim.snapLe
    have hkeep : a₁.log i =
        adopt (a₁.log i) ((a₁.tlog rf₁.currentTerm).take args.lastIncludedIndex) := by
      rw [adopt, if_pos]
      rw [take_of_isPrefix (hsim.commit_le_tlog hI₁ hne).2
        (by rw [hsim.length_take_commit]; omega)]
      exact (List.take_prefix _ _).trans (List.take_prefix _ _)
    obtain ⟨hacc, -, hcore⟩ := hsim.toNodeCore.accept hI₁ hstate hne hlen hkeep c
    rw [← hlogs] at hcore
    exact ⟨rf₁, _, _, rfl, ⟨hacts.trans hacc, ⟨hcore, hsim.durable⟩, hquiet⟩, hack⟩
  · rw [if_neg hold]
    obtain ⟨c, htrunc⟩ := truncateLogWithSnapshot_core hI₁ hsim.toNodeCore hne
      (Nat.lt_of_not_le hold) hlen
    rw [← hlit] at htrunc
    rw [htrunc, Option.bind_some]
    obtain ⟨hacc, hcore⟩ := install_core hI₁ hsim.toNodeCore hstate hne hlen
      (hch.mono hI hx₁ (Nat.le_of_eq hterm.symm)) hdata c
      ⟨rf₁.currentTerm, rf₁.votedFor, stored args.lastIncludedIndex
        (adopt (a₁.log i) ((a₁.tlog rf₁.currentTerm).take args.lastIncludedIndex)) c,
        args.lastIncludedIndex, args.lastIncludedTerm⟩
    rw [← hlit] at hcore
    refine ⟨_, _, _, rfl, ⟨hacts.trans hacc, ⟨hcore, rfl⟩, hquiet.trans ?_⟩, hack⟩
    refine ⟨⟨Nat.le_refl _, ?_, ?_, Nat.le_refl _⟩, rfl, fun hc => ⟨hc, rfl⟩⟩
    · simp only
      omega
    · simp only
      split_ifs <;> omega

theorem snapshot_refines (h : NodeSim Φ a i rf) {index : Nat} {data : Option D}
    (hdata : rf.lastIncludedIndex < index → index ≤ rf.commitIndex →
      Φ ((a.log i).take index) data) :
    ∃ rf', rf.snapshot index data = some rf' ∧ Handled Φ a a i rf rf' := by
  by_cases hout : index ≤ rf.lastIncludedIndex ∨ rf.commitIndex < index
  · rw [Raft.snapshot, if_pos hout]
    exact ⟨rf, rfl, .refl h⟩
  · obtain ⟨c, heq⟩ := snapshot_spec h.repr index data (by omega) (by omega) h.commitLe
    refine ⟨_, heq, .refl i a, ⟨?_, rfl⟩, ?_⟩
    · exact h.toNodeCore.compact (by omega) (hdata (by omega) (by omega)) c _
    · exact ⟨⟨Nat.le_refl _, by simp only; omega, Nat.le_refl _, Nat.le_refl _⟩, rfl,
        fun hc => ⟨hc, rfl⟩⟩

/-! ## Replies -/

/-- In the term of a request, the leader that sent it still has the log that
the history records for the term. -/
theorem NodeCore.leader_log (hI : a.Inv) (h : NodeCore Φ a i rf) (hl : rf.state = .leader) :
    a.log i = a.tlog rf.currentTerm ∧ a.leader rf.currentTerm = some i ∧
      a.acks rf.currentTerm i (a.log i).length := by
  obtain ⟨hlead, hlog, hack⟩ := hI.leading (show a.role i = .leader by
    rw [h.role, hl, NodeState.role])
  rw [h.term] at hlead hlog hack
  exact ⟨hlog, hlead, hack⟩

theorem shouldIgnoreReply_cases (hI : a.Inv) (h : NodeSim Φ a i rf) (argsTerm replyTerm : Nat) :
    (∃ rf' a', rf.shouldIgnoreReply argsTerm replyTerm = (rf', true) ∧
        Handled Φ a a' i rf rf') ∨
      (rf.shouldIgnoreReply argsTerm replyTerm = (rf, false) ∧ rf.state = .leader ∧
        rf.currentTerm = argsTerm ∧ replyTerm ≤ rf.currentTerm) := by
  unfold Raft.shouldIgnoreReply
  rcases handleHigherTerm_cases hI h replyTerm with ⟨hle, heq⟩ | ⟨rf', a', heq, hh⟩
  · rw [heq]
    by_cases hig : rf.state ≠ .leader ∨ rf.currentTerm ≠ argsTerm
    · exact Or.inl ⟨rf, a, by simp [hig], .refl h⟩
    · simp only [not_or, not_not] at hig
      exact Or.inr ⟨by simp [hig], hig.1, hig.2, hle⟩
  · rw [heq]
    exact Or.inl ⟨rf', a', rfl, hh⟩

/-- A leader learns where a peer's log ends. -/
theorem setPeer_core (h : NodeCore Φ a i rf) (peer : Fin n) {next : Nat} (matched : Nat)
    (hnext : rf.state = .leader → next ≤ (a.log i).length + 1)
    (hmatched : rf.state = .leader → matched = rf.matchIndex peer ∨
      matched ≤ (a.log i).length ∧ a.acks rf.currentTerm peer matched) :
    NodeCore Φ a i { rf with
      nextIndex := Function.update rf.nextIndex peer next
      matchIndex := Function.update rf.matchIndex peer matched } := by
  refine h.setPeers fun hl p => ?_
  obtain ⟨hn, hm, hp⟩ := h.peers hl p
  by_cases hpeer : p = peer
  · subst hpeer
    simp only [Function.update_self]
    rcases hmatched hl with heq | ⟨hle, hack⟩
    · rw [heq]
      exact ⟨hnext hl, hm, hp⟩
    · exact ⟨hnext hl, hle, fun _ => Or.inr ⟨matched, Nat.le_refl _, hack⟩⟩
  · simp only [Function.update_of_ne hpeer]
    exact ⟨hn, hm, hp⟩

theorem resolveConflict_refines (h : NodeSim Φ a i rf) (peer : Fin n)
    (args : AppendEntriesArgs n C) (reply : AppendEntriesReply)
    (hprev : args.prevLogIndex ≤ (a.log i).length)
    (hconf : reply.conflictIndex ≤ (a.log i).length + 1) :
    ∃ rf', rf.resolveConflict peer args reply = some rf' ∧ Handled Φ a a i rf rf' := by
  have hset : ∀ next, next ≤ (a.log i).length + 1 → Handled Φ a a i rf
      { rf with nextIndex := Function.update rf.nextIndex peer next } := by
    intro next hnext
    have hcore := setPeer_core h.toNodeCore peer (rf.matchIndex peer)
      (fun _ => hnext) fun _ => Or.inl rfl
    rw [Function.update_eq_self] at hcore
    exact ⟨.refl i a, ⟨hcore, h.durable⟩, .of_progress rfl⟩
  unfold Raft.resolveConflict
  split_ifs
  · exact ⟨rf, rfl, .refl h⟩
  · cases reply.conflictTerm with
    | none => exact ⟨_, rfl, hset _ hconf⟩
    | some t =>
      obtain ⟨r, hr, hfind⟩ := findLastIndexOfTerm_spec h.repr t args.prevLogIndex hprev
      simp only [hfind, Option.bind_eq_bind, Option.bind_some]
      refine ⟨_, rfl, hset _ ?_⟩
      split_ifs
      · omega
      · exact hconf

/-- A majority of match indices makes an index of the current term
committed. -/
theorem committed_of_count (hI : a.Inv) (h : NodeCore Φ a i rf) (hl : rf.state = .leader)
    {k : Nat} (hk : rf.commitIndex < k) (hkl : k ≤ (a.log i).length)
    (hterm : termAt (a.log i) k = rf.currentTerm)
    (hcount : rf.countNodesWithLogAt k > n / 2) :
    a.Committed rf.currentTerm ((a.log i).take k) := by
  obtain ⟨hlog, _, hack⟩ := h.leader_log hI hl
  have hlen : ((a.log i).take k).length = k := by
    rw [List.length_take, Nat.min_eq_left hkl]
  refine ⟨?_, ?_, insert i (Finset.univ.filter fun p => p ≠ i ∧ k ≤ rf.matchIndex p), ?_, ?_⟩
  · intro hnil
    rw [hnil] at hlen
    exact absurd hlen (by simp only [List.length_nil]; omega)
  · rw [lastTerm, hlen, termAt_of_isPrefix (List.take_prefix _ _) (Nat.le_of_eq hlen.symm), hterm]
  · rw [Raft.countNodesWithLogAt, h.me] at hcount
    rw [IsQuorum, Finset.card_insert_of_notMem (by simp), Fintype.card_fin]
    omega
  · intro v hv
    rcases Finset.mem_insert.mp hv with rfl | hv
    · exact ⟨_, hack, by rw [← hlog]; exact List.take_prefix_take_left hkl⟩
    · obtain ⟨hvi, hkv⟩ := (Finset.mem_filter.mp hv).2
      rcases (h.peers hl v).2.2 hvi with hle | ⟨m, hle, hm⟩
      · omega
      · exact ⟨m, hm, by rw [← hlog]; exact List.take_prefix_take_left (by omega)⟩

theorem updateCommitIndex_refines (hI : a.Inv) (h : NodeSim Φ a i rf)
    (hl : rf.state = .leader) :
    ∃ rf', rf.updateCommitIndex = some rf' ∧ Handled Φ a a i rf rf' := by
  rcases updateCommitIndex_spec h.repr h.snapLe with heq | ⟨k, hk, hkl, hterm, hcount, heq⟩
  · exact ⟨rf, heq, .refl h⟩
  · have hcom := committed_of_count hI h.toNodeCore hl hk hkl hterm hcount
    refine ⟨_, heq, .refl i a, ⟨h.toNodeCore.commit (Nat.le_of_lt hk) hkl ?_, h.durable⟩, ?_⟩
    · exact Or.inr ⟨_, _, Nat.le_refl _, hcom, List.prefix_rfl⟩
    · exact ⟨⟨Nat.le_refl _, Nat.le_refl _, Nat.le_of_lt hk, Nat.le_refl _⟩, rfl,
        fun hc => ⟨hc, rfl⟩⟩

theorem handleAppendEntriesReply_refines (hI : a.Inv) (h : NodeSim Φ a i rf)
    {args : AppendEntriesArgs n C} {reply : AppendEntriesReply}
    (hargs : rpc.args = .appendEntries args) (hrpc : RpcOk Φ a rpc)
    (hreply : ReplyOk a rpc (.appendEntries reply)) :
    ∃ rf' a', rf.handleAppendEntriesReply rpc.dst args reply = some rf' ∧
      Handled Φ a a' i rf rf' := by
  obtain ⟨_, hlen, _⟩ := (rpcOk_appendEntries hargs).mp hrpc
  obtain ⟨hsucc, hfail⟩ := (replyOk_appendEntries hargs).mp hreply
  unfold Raft.handleAppendEntriesReply
  rcases shouldIgnoreReply_cases hI h args.term reply.term with
    ⟨rf', a', heq, hh⟩ | ⟨heq, hl, hterm, hle⟩
  · rw [heq]
    exact ⟨rf', a', rfl, hh⟩
  rw [heq]
  obtain ⟨hlog, _⟩ := h.toNodeCore.leader_log hI hl
  rw [hterm] at hlog
  simp only [Bool.false_eq_true, if_false]
  split_ifs with hs
  · obtain ⟨rf', heq', hh⟩ := resolveConflict_refines h rpc.dst args reply
      (by rw [hlog]; omega) (by rw [hlog]; rcases hfail hs with hf | hf <;> omega)
    exact ⟨rf', a, heq', hh⟩
  · have hack := hsucc (by simpa using hs)
    have hadv : NodeSim Φ a i (rf.advancePeerIndices rpc.dst args) ∧
        Quiet rf (rf.advancePeerIndices rpc.dst args) := by
      simp only [Raft.advancePeerIndices]
      split_ifs
      · refine ⟨⟨?_, h.durable⟩, .of_progress rfl⟩
        exact setPeer_core h.toNodeCore rpc.dst _ (fun _ => by rw [hlog]; omega)
          fun _ => Or.inr ⟨by rw [hlog]; exact hlen, hterm ▸ hack⟩
      · exact ⟨h, .refl rf⟩
    have hl' : (rf.advancePeerIndices rpc.dst args).state = .leader := by
      simp only [Raft.advancePeerIndices]
      split_ifs
      · exact hl
      · exact hl
    obtain ⟨rf', heq', hh⟩ := updateCommitIndex_refines hI hadv.1 hl'
    exact ⟨rf', a, heq', hh.acts, hh.node, hadv.2.trans hh.quiet⟩

theorem handleInstallSnapshotReply_refines (hI : a.Inv) (h : NodeSim Φ a i rf)
    {args : InstallSnapshotArgs n D} {reply : InstallSnapshotReply}
    (hargs : rpc.args = .installSnapshot args) (hrpc : RpcOk Φ a rpc)
    (hreply : ReplyOk a rpc (.installSnapshot reply)) :
    ∃ a', Handled Φ a a' i rf (rf.handleInstallSnapshotReply rpc.dst args reply) := by
  obtain ⟨_, hlen, _⟩ := (rpcOk_installSnapshot hargs).mp hrpc
  have hor := (replyOk_installSnapshot hargs).mp hreply
  unfold Raft.handleInstallSnapshotReply
  rcases handleHigherTerm_cases hI h reply.term with ⟨hle, heq⟩ | ⟨rf', a', heq, hh⟩
  · rw [heq]
    simp only [Bool.false_eq_true, if_false]
    by_cases hl : rf.state = .leader ∧ rf.currentTerm = args.term
    · rw [if_pos hl]
      obtain ⟨hl, hterm⟩ := hl
      obtain ⟨hlog, _⟩ := h.toNodeCore.leader_log hI hl
      rw [hterm] at hlog
      have hack : a.acks rf.currentTerm rpc.dst args.lastIncludedIndex := by
        rw [hterm]
        exact hor.resolve_left (by omega)
      -- Both indices of the peer stay, or move to the end of the snapshot.
      have hnext : (if args.lastIncludedIndex + 1 > rf.nextIndex rpc.dst then
            Function.update rf.nextIndex rpc.dst (args.lastIncludedIndex + 1)
          else rf.nextIndex) = Function.update rf.nextIndex rpc.dst
            (max (rf.nextIndex rpc.dst) (args.lastIncludedIndex + 1)) := by
        split_ifs with hgt
        · rw [Nat.max_eq_right (Nat.le_of_lt hgt)]
        · rw [Nat.max_eq_left (Nat.le_of_not_lt hgt), Function.update_eq_self]
      have hmatch : (if args.lastIncludedIndex > rf.matchIndex rpc.dst then
            Function.update rf.matchIndex rpc.dst args.lastIncludedIndex
          else rf.matchIndex) = Function.update rf.matchIndex rpc.dst
            (max (rf.matchIndex rpc.dst) args.lastIncludedIndex) := by
        split_ifs with hgt
        · rw [Nat.max_eq_right (Nat.le_of_lt hgt)]
        · rw [Nat.max_eq_left (Nat.le_of_not_lt hgt), Function.update_eq_self]
      rw [hnext, hmatch]
      obtain ⟨hn, _⟩ := h.peers hl rpc.dst
      refine ⟨a, .refl i a, ⟨setPeer_core h.toNodeCore rpc.dst _ (fun _ => ?_) (fun _ => ?_),
        h.durable⟩, .of_progress rfl⟩
      · rw [hlog] at hn ⊢
        omega
      · rcases Nat.le_total args.lastIncludedIndex (rf.matchIndex rpc.dst) with hle | hle
        · exact Or.inl (Nat.max_eq_left hle)
        · rw [Nat.max_eq_right hle, hlog]
          exact Or.inr ⟨hlen, hack⟩
    · rw [if_neg hl]
      exact ⟨a, .refl h⟩
  · rw [heq]
    exact ⟨a', hh⟩

/-! ## The applier -/

/-- A slot up to the commit index, as a message for the service. -/
theorem NodeCore.msgOk_command (h : NodeCore Φ a i rf) {k : Nat} {e : Slot (Option C)}
    (hk : k < rf.commitIndex) (he : (a.log i)[k]? = some e) :
    MsgOk (D := D) Φ a rf.currentTerm (.command e.cmd (k + 1)) := by
  obtain ⟨hlt, rfl⟩ := List.getElem?_eq_some_iff.mp he
  refine ⟨(a.log i).take k, (a.log i)[k], h.chosen.of_isPrefix ?_, ?_, rfl⟩
  · rw [List.take_append_getElem hlt]
    exact List.take_prefix_take_left hk
  · rw [List.length_take, Nat.min_eq_left (Nat.le_of_lt hlt)]

theorem NodeCore.msgOk_snapshot (h : NodeCore Φ a i rf) : MsgOk Φ a rf.currentTerm
    (.snapshot rf.persister.readSnapshot rf.lastIncludedTerm rf.lastIncludedIndex) := by
  have hlen : ((a.log i).take rf.lastIncludedIndex).length = rf.lastIncludedIndex := by
    rw [List.length_take, Nat.min_eq_left h.repr.le]
  refine ⟨(a.log i).take rf.lastIncludedIndex, h.chosen.of_isPrefix ?_, hlen, ?_, ?_⟩
  · exact List.take_prefix_take_left h.snapLe
  · rw [h.repr.term, termAt_of_isPrefix (List.take_prefix _ _) (Nat.le_of_eq hlen.symm)]
  · rw [h.readSnapshot]
    exact h.snapData

theorem NodeCore.setApplying (h : NodeCore Φ a i rf) (hempty : rf.applying = []) {q : Nat}
    {batch : List (ApplyMsg C D)} (hq : q ≤ rf.commitIndex)
    (hmsgs : ∀ msg ∈ batch, MsgOk Φ a rf.currentTerm msg)
    (hfollows : Follows rf.lastApplied batch q) :
    NodeCore Φ a i { rf with lastApplied := q, applying := batch } := by
  have hm := h.msgs
  have hf := h.follows
  rw [hempty, List.append_nil] at hm hf
  refine
    { h with
      repr := ⟨h.repr.le, h.repr.term, h.repr.logs⟩
      appliedLe := hq
      peers := h.peers
      msgs := fun msg hmsg => ?_
      follows := follows_append.mpr ⟨_, hf, hfollows⟩ }
  rcases List.mem_append.mp hmsg with hmsg | hmsg
  · exact hm msg hmsg
  · exact hmsgs msg hmsg

theorem applierTake_refines (h : NodeSim Φ a i rf) (hempty : rf.applying = [])
    (hlt : rf.lastApplied < rf.commitIndex) :
    ∃ rf', rf.applierTake = some rf' ∧ Handled Φ a a i rf rf' := by
  unfold Raft.applierTake
  split_ifs with hsnap
  · refine ⟨_, rfl, .refl i a, ⟨?_, h.durable⟩, ⟨Nat.le_refl _, Nat.le_refl _, Nat.le_refl _,
      Nat.le_of_lt hsnap⟩, rfl, fun hc => ⟨hc, rfl⟩⟩
    refine h.toNodeCore.setApplying hempty h.snapLe (fun msg hmsg => ?_) ⟨hsnap, rfl⟩
    rw [List.mem_singleton.mp hmsg]
    exact h.msgOk_snapshot
  · have hcl := h.commitLe
    dsimp only
    rw [applierSlice_spec h.repr (by omega) (Nat.le_of_lt hlt) hcl]
    refine ⟨_, rfl, .refl i a, ⟨?_, h.durable⟩, ⟨Nat.le_refl _, Nat.le_refl _, Nat.le_refl _,
      Nat.le_of_lt hlt⟩, rfl, fun hc => ⟨hc, rfl⟩⟩
    refine h.toNodeCore.setApplying hempty (Nat.le_refl _) (fun msg hmsg => ?_) ?_
    · obtain ⟨entry, hentry, rfl⟩ := List.mem_map.mp hmsg
      obtain ⟨j, e, he, rfl⟩ := exists_of_mem_numbered hentry
      obtain ⟨hj, _⟩ := List.getElem?_eq_some_iff.mp he
      rw [List.length_take, List.length_drop] at hj
      rw [List.getElem?_take, if_pos (by omega), List.getElem?_drop] at he
      have := h.msgOk_command (by omega) he
      rwa [show rf.lastApplied + j + 1 = rf.lastApplied + 1 + j by omega] at this
    · have := follows_numbered (D := D) rf.lastApplied
        (((a.log i).drop rf.lastApplied).take (rf.commitIndex - rf.lastApplied))
      rwa [List.length_take, List.length_drop, show rf.lastApplied + min
        (rf.commitIndex - rf.lastApplied) ((a.log i).length - rf.lastApplied) =
        rf.commitIndex by omega] at this

theorem applierSend_refines (h : NodeSim Φ a i rf) :
    Handled Φ a a i rf rf.applierSend := by
  unfold Raft.applierSend
  cases happ : rf.applying with
  | nil => exact .refl h
  | cons msg rest =>
    have heq : rf.applyCh ++ [msg] ++ rest = rf.applyCh ++ rf.applying := by
      rw [happ, List.append_assoc, List.singleton_append]
    refine ⟨.refl i a, ⟨?_, h.durable⟩, .of_progress rfl⟩
    exact
      { h.toNodeCore with
        repr := ⟨h.repr.le, h.repr.term, h.repr.logs⟩
        peers := h.peers
        msgs := heq ▸ h.msgs
        follows := heq ▸ h.follows }

/-! ## Commands, elections and restarts -/

theorem start_refines (hI : a.Inv) (h : NodeSim Φ a i rf) (hl : rf.state = .leader)
    (command : Option C) : NodeSim Φ (a.propose i command) i (rf.start command).1 ∧
      Quiet rf (rf.start command).1 := by
  rw [Raft.start, if_neg (not_not.mpr hl)]
  refine ⟨(h.toNodeCore.propose hI hl command).persist, Quiet.trans ?_ (.persist _)⟩
  exact .of_progress rfl

/-- A candidate asks with the log that it stands with. -/
theorem becomeCandidate_refines (hI : a.Inv) (h : NodeSim Φ a i rf) :
    ∃ rf', rf.becomeCandidate = some (rf', ⟨rf.currentTerm + 1, i, lastTerm (a.log i),
        (a.log i).length⟩, rf.grantedVotes.length) ∧
      NodeSim Φ (a.stand i) i rf' ∧ Grows rf rf' ∧ rf'.currentTerm = rf.currentTerm + 1 ∧
      rf'.grantedVotes = rf.grantedVotes ++ [1] := by
  have hcore := h.toNodeCore.stand hI (rf.grantedVotes ++ [1])
  have hsim := hcore.persist
  rw [Raft.persist_eq hcore.alive hcore.noFault] at hsim
  refine ⟨_, ?_, hsim, ⟨Nat.le_succ _, Nat.le_refl _, Nat.le_refl _, Nat.le_refl _⟩, rfl, rfl⟩
  rw [Raft.becomeCandidate, Raft.becomeCandidateTerm,
    Raft.persist_eq (by exact h.alive) (by exact h.noFault), Raft.startElection,
    Raft.persist_eq (by exact h.alive) (by exact h.noFault)]
  dsimp only
  rw [genRequestVoteArgs_spec (l := a.log i)]
  · simp only [h.me, Option.bind_eq_bind, Option.bind_some]
    rfl
  · exact ⟨h.repr.le, h.repr.term, h.repr.logs⟩

/-- An instance that restarts from a disk which holds the memory of `rf`. -/
theorem make_sim (hI : a.Inv) (h : NodeCore Φ a i rf) (ps : Persister n C D)
    (hps : ps.recover = rf.encodeState) (hsnap : ps.snapshot = rf.persister.snapshot)
    (hfault : ps.readFault = none) :
    ∃ a', MemberMoves i a a' ∧ NodeSim Φ a' i (Raft.make i ps) := by
  obtain ⟨hacts, hcore⟩ := h.retire hI (Or.inr ⟨rfl, rfl⟩) none
  refine ⟨_, hacts, ?_⟩
  rw [Raft.make_eq, hps]
  refine ⟨?_, hps⟩
  exact
    { hcore with
      me := rfl
      alive := rfl
      noFault := hfault
      repr := ⟨h.repr.le, h.repr.term, h.repr.logs⟩
      snapLe := Nat.le_refl _
      commitLe := h.repr.le
      chosen := hcore.chosen.of_isPrefix (List.take_prefix_take_left h.snapLe)
      appliedLe := Nat.le_refl _
      snapData := by
        show Φ _ ps.snapshot
        rw [hsnap]
        exact h.snapData
      peers := fun hl => by simp [Raft.blank] at hl
      msgs := fun msg hmsg => by simp [Raft.blank] at hmsg
      follows := rfl }

theorem restart_refines (hI : a.Inv) (h : NodeSim Φ a i rf) :
    ∃ a', MemberMoves i a a' ∧ NodeSim Φ a' i (Raft.make i rf.persister) :=
  make_sim hI h.toNodeCore _ h.durable rfl h.noFault

/-- The new term with the old vote is on disk. -/
theorem crashInBecomeCandidate_refines (hI : a.Inv) (h : NodeSim Φ a i rf) :
    ∃ a', MemberMoves i a a' ∧ NodeSim Φ a' i (Raft.make i rf.becomeCandidateTerm.persister) := by
  obtain ⟨hacts, hcore⟩ := h.toNodeCore.retire hI (t := rf.currentTerm + 1)
    (Or.inl (Nat.lt_succ_self _)) rf.currentLeader (x := rf.votedFor)
  have hps : rf.becomeCandidateTerm.persister = rf.persister.save
      ⟨rf.currentTerm + 1, rf.votedFor, rf.logs, rf.lastIncludedIndex, rf.lastIncludedTerm⟩
      rf.persister.snapshot := by
    rw [Raft.becomeCandidateTerm, Raft.persist_eq (by exact h.alive) (by exact h.noFault)]
    rfl
  rw [hps]
  obtain ⟨a', hacts', hsim⟩ := make_sim (hacts.inv hI).1 hcore (rf.persister.save
    ⟨rf.currentTerm + 1, rf.votedFor, rf.logs, rf.lastIncludedIndex, rf.lastIncludedTerm⟩
    rf.persister.snapshot) rfl rfl h.noFault
  exact ⟨a', hacts.trans hacts', hsim⟩

/-- The new term without a vote is on disk. -/
theorem crashInInstallSnapshot_refines (hI : a.Inv) (h : NodeSim Φ a i rf) {t : Nat}
    (ht : rf.currentTerm < t) :
    ∃ a', MemberMoves i a a' ∧
      NodeSim Φ a' i (Raft.make i (rf.installSnapshotTerm t).persister) := by
  obtain ⟨hacts, hcore⟩ := h.toNodeCore.retire hI (Or.inl ht) rf.currentLeader (x := none)
  have hps : (rf.installSnapshotTerm t).persister = rf.persister.save
      ⟨t, none, rf.logs, rf.lastIncludedIndex, rf.lastIncludedTerm⟩
      rf.persister.snapshot := by
    rw [Raft.installSnapshotTerm, if_pos ht,
      Raft.persist_eq (by exact h.alive) (by exact h.noFault)]
    rfl
  rw [hps]
  obtain ⟨a', hacts', hsim⟩ := make_sim (hacts.inv hI).1 hcore (rf.persister.save
    ⟨t, none, rf.logs, rf.lastIncludedIndex, rf.lastIncludedTerm⟩
    rf.persister.snapshot) rfl rfl h.noFault
  exact ⟨a', hacts.trans hacts', hsim⟩

end KvRaft
