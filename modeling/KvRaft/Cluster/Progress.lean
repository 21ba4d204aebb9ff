import KvRaft.Cluster.CommitRule
import KvRaft.Cluster.Election

/-!
# A majority can apply a command

From every state that a cluster can be in, a majority `Q` can elect a leader,
and a command that this leader accepts can be applied by every member of `Q`,
with nobody else taking part.  So no sequence of losses, crashes, elections and
compactions leads to a state in which a majority is stuck.

After the election (`KvRaft.Cluster.Election`) the leader goes through its peers
in `Q` twice.  The first time it repairs their logs, by the rounds of
`KvRaft.Cluster.Backtracking`, and the last acknowledgement commits the command.
The second time it tells them its commit index.  Then the appliers go on.

A leader that can be repaired from has `1 ≤ nextIndex`.  A reply to a request
that could not be decoded sets it to 0, and then the next round sends the
snapshot, even an empty one, and sets it right.
-/

namespace KvRaft

open Consensus Relation Cluster

variable {n : Nat} {C D : Type} {Q : Finset (Fin n)} {σ σ' : Cluster n C D} {i j : Fin n}
variable {peer : Fin n} {ld fl ld' fl' : Raft n C D}

/-! ## What a round keeps -/

/-- What a round between a leader and a peer of no higher term does to both. -/
structure RoundKeeps (peer : Fin n) (ld fl ld' fl' : Raft n C D) (accepted : Bool) : Prop where
  leader : ld'.state = .leader
  term : ld'.currentTerm = ld.currentTerm
  log : SameLog ld ld'
  others : ∀ p, p ≠ peer → ld'.matchIndex p = ld.matchIndex p
  commit : ld.commitIndex ≤ ld'.commitIndex
  applied : ld'.lastApplied = ld.lastApplied
  peerTerm : fl'.currentTerm = ld.currentTerm
  peerApplied : fl'.lastApplied = fl.lastApplied
  /-- The leader counts, and the peer hears about the commit index. -/
  accepts : accepted = true →
    ld'.Prompt ∧ min ld.commitIndex (fl'.getLen - 1) ≤ fl'.commitIndex

/-- The peer of an accepted request has the leader's commit index, as far as its
log goes. -/
theorem advanceCommitIndex_le (rf : Raft n C D) (leaderCommit : Nat) :
    min leaderCommit ((rf.advanceCommitIndex leaderCommit).getLen - 1) ≤
      (rf.advanceCommitIndex leaderCommit).commitIndex := by
  have hlen : (rf.advanceCommitIndex leaderCommit).getLen = rf.getLen := by
    rw [advanceCommitIndex_eq]
    rfl
  rw [hlen]
  unfold Raft.advanceCommitIndex
  split_ifs with hlt
  · simp only
    split_ifs <;> omega
  · omega

theorem replicationRound_keeps {accepted : Bool} (hl : ld.state = .leader)
    (hterm : fl.currentTerm ≤ ld.currentTerm)
    (h : replicationRound peer ld fl = some ((ld', fl'), accepted)) :
    RoundKeeps peer ld fl ld' fl' accepted := by
  obtain ⟨args, reply, hsend, hreq, hrep, rfl⟩ := replicationRound_inv h
  have hsame : ∀ t, t ≤ ld.currentTerm → ld.handleHigherTerm t = (ld, false) :=
    fun t ht => if_neg (Nat.not_lt_of_le ht)
  obtain ⟨_, ⟨_, rfl⟩ | ⟨_, a, hgen, rfl⟩⟩ := replicateToPeer_inv hsend
  · -- A snapshot is never refused by a peer of no higher term.
    obtain ⟨⟨fl₁, r⟩, hinstall, hdone⟩ := Option.bind_eq_some_iff.mp hreq
    cases hdone
    cases hrep
    obtain ⟨rfl, hcases⟩ := installSnapshot_inv hinstall
    have hfl : fl'.currentTerm = ld.currentTerm ∧ fl'.lastApplied = fl.lastApplied := by
      rcases hcases with ⟨hold, _⟩ | ⟨hge, ⟨_, rfl⟩ | ⟨_, fl₂, htrunc, rfl⟩⟩
      · exact absurd hold (Nat.not_lt_of_le hterm)
      · exact ⟨heed_currentTerm fl hge _, by rw [heed_keeps]⟩
      · rw [truncateLogWithSnapshot_eq htrunc]
        exact ⟨heed_currentTerm fl hge ld.genInstallSnapshotArgs.leaderId, by rw [heed_keeps]⟩
    have hld := handleInstallSnapshotReply_inv ld peer ld.genInstallSnapshotArgs ⟨fl.currentTerm⟩
    rw [hsame _ hterm] at hld
    rcases hld with hld | ⟨_, hld⟩
    · rw [hld]
      exact ⟨hl, rfl, ⟨rfl, rfl, rfl⟩, fun _ _ => rfl, Nat.le_refl _, rfl, hfl.1, hfl.2,
        fun h => by cases h⟩
    · rw [hld]
      refine ⟨hl, rfl, ⟨rfl, rfl, rfl⟩, fun p hp => ?_, Nat.le_refl _, rfl, hfl.1, hfl.2,
        fun h => by cases h⟩
      simp only
      split_ifs
      · exact Function.update_of_ne hp ..
      · rfl
  · obtain ⟨⟨fl₁, r⟩, happend, hdone⟩ := Option.bind_eq_some_iff.mp hreq
    cases hdone
    obtain ⟨hterm', hcommit⟩ : a.term = ld.currentTerm ∧ a.leaderCommit = ld.commitIndex := by
      obtain ⟨_, _, hgen⟩ := Option.bind_eq_some_iff.mp hgen
      obtain ⟨_, _, hgen⟩ := Option.bind_eq_some_iff.mp hgen
      cases hgen
      exact ⟨rfl, rfl⟩
    rcases appendEntries_inv happend with ⟨hold, _⟩ | ⟨_, ⟨index, term, _, rfl, rfl⟩ |
      ⟨fl₂, _, hmerge, rfl, rfl⟩⟩
    · omega
    · have hkeeps : ld' = { ld with nextIndex := ld'.nextIndex } := by
        rcases handleAppendEntriesReply_inv hrep with heq | ⟨_, ⟨_, hback⟩ | ⟨hsucc, _⟩⟩
        · rw [heq, hsame _ hterm]
        · exact resolveConflict_eq hback
        · cases hsucc
      rw [hkeeps, persist_keeps]
      exact ⟨hl, rfl, ⟨rfl, rfl, rfl⟩, fun _ _ => rfl, Nat.le_refl _, rfl, hterm', rfl,
        fun h => by cases h⟩
    · have hcount : (ld.advancePeerIndices peer a).updateCommitIndex = some ld' := by
        have hrep' : ld.handleAppendEntriesReply peer a ⟨fl.currentTerm, true, 0, some 0⟩ =
          some ld' := hrep
        rw [handleAppendEntriesReply_leader hl hterm'.symm hterm, if_neg (by simp)] at hrep'
        exact hrep'
      have hleads := Raft.leaderStep_updateCommitIndex hl hcount
      have hld : ld' = { ld with
          matchIndex := (ld.advancePeerIndices peer a).matchIndex
          nextIndex := (ld.advancePeerIndices peer a).nextIndex
          commitIndex := ld'.commitIndex } := by
        rw [updateCommitScan_eq hcount, advancePeerIndices_eq]
      have hothers : ∀ p, p ≠ peer →
          (ld.advancePeerIndices peer a).matchIndex p = ld.matchIndex p := by
        intro p hp
        unfold Raft.advancePeerIndices
        simp only
        split_ifs
        · exact Function.update_of_ne hp ..
        · rfl
      have hle := hleads.commitIndex_le
      have hprompt := hleads.prompt
      refine ⟨by rw [hld]; exact hl, by rw [hld], by rw [hld]; exact ⟨rfl, rfl, rfl⟩,
        fun p hp => by rw [hld]; exact hothers p hp, hle, by rw [hld], ?_, ?_, fun _ =>
          ⟨hprompt, ?_⟩⟩
      · rw [persist_keeps, advanceCommitIndex_eq, appendNewEntries_eq hmerge]
        exact hterm'
      · rw [persist_keeps, advanceCommitIndex_eq, appendNewEntries_eq hmerge]
        rfl
      · rw [persist_keeps, ← hcommit]
        exact advanceCommitIndex_le fl₂ a.leaderCommit

/-- The same for all rounds until the peer accepts. -/
theorem replicate_keeps {fuel : Nat} : ∀ {ld fl : Raft n C D}, ld.state = .leader →
    fl.currentTerm ≤ ld.currentTerm → replicate peer fuel ld fl = some (ld', fl') →
      RoundKeeps peer ld fl ld' fl' true := by
  induction fuel with
  | zero =>
    intro ld fl _ _ h
    cases h
  | succ fuel ih =>
    intro ld fl hl hterm h
    obtain ⟨⟨⟨ld₁, fl₁⟩, accepted⟩, hround, hrest⟩ := Option.bind_eq_some_iff.mp h
    have hkeeps := replicationRound_keeps hl hterm hround
    cases accepted with
    | true =>
      cases hrest
      exact hkeeps
    | false =>
      have hnext := ih hkeeps.leader (by rw [hkeeps.peerTerm, hkeeps.term]) hrest
      have hlog := hkeeps.log
      have hlog' := hnext.log
      refine ⟨hnext.leader, hnext.term.trans hkeeps.term, ⟨hlog'.logs.trans hlog.logs,
        hlog'.index.trans hlog.index, hlog'.term.trans hlog.term⟩,
        fun p hp => (hnext.others p hp).trans (hkeeps.others p hp),
        hkeeps.commit.trans hnext.commit, hnext.applied.trans hkeeps.applied,
        hnext.peerTerm.trans hkeeps.term, hnext.peerApplied.trans hkeeps.peerApplied, fun _ => ?_⟩
      obtain ⟨hprompt, hle⟩ := hnext.accepts rfl
      have hcommit := hkeeps.commit
      exact ⟨hprompt, by omega⟩

/-- From `nextIndex = 0` the leader sends its snapshot, and continues behind it. -/
theorem repairs_from_zero (hzero : ld.nextIndex peer = 0)
    (h : Repairable peer { ld with nextIndex := Function.update ld.nextIndex peer 1 } fl)
    (hcommit : ld.lastIncludedIndex ≤ ld.commitIndex) : ∃ fuel, Repairs peer fuel ld fl := by
  have hn : ld.nextIndex peer ≤ ld.lastIncludedIndex := by omega
  have hl : ld.state = .leader := h.leader
  have hterm : fl.currentTerm ≤ ld.currentTerm := h.term
  have hsend : ld.replicateToPeer peer =
      some (some (.installSnapshot ld.genInstallSnapshotArgs)) := by
    rw [Raft.replicateToPeer, if_neg (not_not.mpr hl), if_pos hn]
  obtain ⟨fl₁, hreq, hfl₁, _, hhigh⟩ := h.installSnapshot
  have hrep := handleInstallSnapshotReply_leader peer ld.genInstallSnapshotArgs
    ⟨fl.currentTerm⟩ hl rfl hterm hn
  have hround : replicationRound peer ld fl = some ((ld.handleInstallSnapshotReply peer
      ld.genInstallSnapshotArgs ⟨fl.currentTerm⟩, fl₁), false) := by
    have hreq' : fl.installSnapshot ld.genInstallSnapshotArgs = some (fl₁, ⟨fl.currentTerm⟩) := hreq
    simp only [replicationRound, hsend, Option.bind_eq_bind, Option.bind_some,
      Cluster.handleRequest, hreq', Cluster.handleReply]
    rfl
  rw [hrep] at hround
  have hpos := List.length_pos_iff.mpr h.leaderLog.nonempty
  have hlen : ld.lastIncludedIndex + 1 ≤ ld.getLen := by
    rw [Raft.getLen]
    have : 0 < ld.logs.length := hpos
    omega
  have hmatched : ld.matchIndex peer ≤ ld.getLen - 1 := h.matched
  refine ⟨_, .of_refused hround ⟨rfl, rfl, rfl⟩ hhigh
    (Repairable.repairs (hfl₁.congr ⟨rfl, rfl, rfl⟩ ⟨rfl, rfl, rfl⟩ h.leader hfl₁.term ?_ ?_)
      hcommit (Nat.le_refl _) (Nat.le_refl _))⟩
  · simp only [Function.update_self]
    exact ⟨Nat.le_add_left 1 _, hlen⟩
  · simp only [Function.update_self, Raft.genInstallSnapshotArgs]
    show _ ≤ ld.getLen - 1
    omega

/-! ## A leader can repair every peer -/

/-- What a member of `Q` has committed is in the leader's log. -/
theorem Leads.committed {a : Abs n C} (hI : a.Inv) (hS : Sim (fun _ _ => True) σ a)
    (h : Leads Q i σ) (hj : j ∈ Q) :
    (a.log j).take (σ.nodes j).commitIndex <+: a.log i := by
  obtain ⟨hlog, hlead, _⟩ := (hS.node i).toNodeCore.leader_log hI h.leader
  rw [hlog]
  exact State.chosen_prefix_tlog hI (hS.node j).chosen (h.terms j hj)
    (by rw [hlead]; exact Option.some_ne_none i)

/-- No member of `Q` has committed an index beyond the leader's log. -/
theorem Leads.commitIndex_lt (hσ : σ.Sound) (h : Leads Q i σ) (hj : j ∈ Q) :
    (σ.nodes j).commitIndex < (σ.nodes i).getLen := by
  obtain ⟨a, hI, hS⟩ := hσ
  have hle := (h.committed hI hS hj).length_le
  have hcommit := (hS.node j).commitLe
  rw [List.length_take] at hle
  rw [(hS.node i).repr.getLen]
  omega

/-- Two nodes of a sound cluster have matching logs. -/
theorem logsMatch_of_sim {a : Abs n C} (hI : a.Inv) (hS : Sim (fun _ _ => True) σ a)
    (i j : Fin n) : LogsMatch (σ.nodes i) (σ.nodes j) := by
  intro k d e hki hkj hd he hterm m hmi hmj hmk
  have hi := (hS.node i).repr
  have hj := (hS.node j).repr
  have hleni := lt_getLen_of_getLog hki hd
  have hlenj := lt_getLen_of_getLog hkj he
  rw [hi.getLen] at hleni
  rw [hj.getLen] at hlenj
  rw [hi.term_of_getLog hki hd, hj.term_of_getLog hkj he] at hterm
  have hmatch := State.valid_matching (hI.log_valid i) (hI.log_valid j)
    (Nat.le_of_lt_succ hleni) (Nat.le_of_lt_succ hlenj) hterm
  obtain ⟨m, rfl⟩ : ∃ m', m = m' + 1 := ⟨m - 1, by omega⟩
  have hget := List.getElem?_eq_getElem (show m < (a.log i).length by omega)
  have hget' : (a.log j)[m]? = some (a.log i)[m] := by
    have htake := congrArg (fun l => l[m]?) hmatch
    simp only [List.getElem?_take, if_pos (show m < k by omega)] at htake
    rw [← htake, hget]
  rw [hi.getLog_of_getElem? (Nat.le_of_lt_succ hmi) hget,
    hj.getLog_of_getElem? (Nat.le_of_lt_succ hmj) hget']

theorem LogOk.wellFormed {rf : Raft n C D} (h : LogOk rf) : WellFormed rf :=
  ⟨⟨h.index, h.sorted⟩, h.nonempty, h.head⟩

/-- A leader can repair its peers in `Q`, from every `nextIndex` but 0. -/
theorem Leads.repairable (hσ : σ.Sound) (h : Leads Q i σ) (hj : j ∈ Q) {next : Fin n → Nat}
    (hnext : 1 ≤ next j ∧ next j ≤ (σ.nodes i).getLen) :
    Repairable j { σ.nodes i with nextIndex := next } (σ.nodes j) := by
  have hlt := h.commitIndex_lt hσ hj
  have hoki := hσ.logOk i
  have hokj := hσ.logOk j
  obtain ⟨a, hI, hS⟩ := hσ
  have hsnap := hokj.snapshot
  have hrepr := (hS.node i).repr
  have hsame : SameLog (σ.nodes i) { σ.nodes i with nextIndex := next } := ⟨rfl, rfl, rfl⟩
  have hleader := hsame.wellFormed hoki.wellFormed
  refine ⟨⟨h.leader, h.terms j hj, hleader.toContiguous, hokj.wellFormed.toContiguous,
    logsMatch_of_sim hI hS i j, Nat.lt_of_le_of_lt hsnap hlt, fun hle => ?_, hnext,
    (hoki.peers h.leader j).2⟩, hleader.toAnchored, hokj.wellFormed.toAnchored⟩
  -- The snapshot of `j` covers committed slots, which the leader has.
  have hpre := (List.take_prefix_take_left hsnap).trans (h.committed hI hS hj)
  obtain ⟨d, hd⟩ := hrepr.getLog hle
    (by rw [hrepr.getLen] at hlt; omega : (σ.nodes j).lastIncludedIndex ≤ (a.log i).length)
  refine ⟨_, hd, ?_⟩
  have hlen := (hS.node j).repr.le
  rw [(hS.node j).repr.term]
  have hlenTake : ((a.log j).take (σ.nodes j).lastIncludedIndex).length =
      (σ.nodes j).lastIncludedIndex := by
    rw [List.length_take]
    omega
  rw [← termAt_of_isPrefix hpre (Nat.le_of_eq hlenTake.symm),
    ← termAt_of_isPrefix (List.take_prefix _ (a.log j)) (Nat.le_of_eq hlenTake.symm)]

/-- A leader repairs each of its peers in `Q` in finitely many rounds. -/
theorem Leads.repairs (hσ : σ.Sound) (h : Leads Q i σ) (hj : j ∈ Q) :
    ∃ fuel, Repairs j fuel (σ.nodes i) (σ.nodes j) := by
  have hok := hσ.logOk i
  have hnext := (hok.peers h.leader j).1
  rcases Nat.eq_zero_or_pos ((σ.nodes i).nextIndex j) with hzero | hpos
  · refine repairs_from_zero hzero (h.repairable hσ hj ?_) hok.snapshot
    have hpos := List.length_pos_iff.mpr hok.nonempty
    simp only [Function.update_self, Raft.getLen]
    omega
  · exact ⟨_, (h.repairable hσ hj ⟨hpos, hnext⟩).repairs hok.snapshot (Nat.le_refl _)
      (Nat.le_refl _)⟩

/-! ## A leader goes through its peers -/

/-- The rounds until the peer accepts, as events. -/
theorem reaches_replicate (hi : i ∈ Q) (hj : j ∈ Q) (hne : j ≠ i) {fuel : Nat} :
    ∀ {σ : Cluster n C D}, σ.Sound → replicate j fuel (σ.nodes i) (σ.nodes j) = some (ld', fl') →
      ∃ σ', Reaches Q σ σ' ∧
        σ'.nodes = Function.update (Function.update σ.nodes j fl') i ld' := by
  induction fuel with
  | zero =>
    intro σ _ h
    cases h
  | succ fuel ih =>
    intro σ hσ h
    obtain ⟨⟨⟨ld₁, fl₁⟩, accepted⟩, hround, hrest⟩ := Option.bind_eq_some_iff.mp h
    obtain ⟨σ₁, hr, hnodes⟩ := reaches_round hi hj hne (hσ.me i) hround
    cases accepted with
    | true =>
      cases hrest
      exact ⟨σ₁, hr, hnodes⟩
    | false =>
      have hi₁ : σ₁.nodes i = ld₁ := by rw [hnodes, Function.update_self]
      have hj₁ : σ₁.nodes j = fl₁ := by
        rw [hnodes, Function.update_of_ne hne, Function.update_self]
      obtain ⟨σ₂, hr₂, hnodes₂⟩ := ih (hσ.reaches hr) (by rw [hi₁, hj₁]; exact hrest)
      refine ⟨σ₂, hr.trans hr₂, ?_⟩
      rw [hnodes₂, hnodes, Function.update_comm hne, Function.update_idem,
        Function.update_comm hne, Function.update_idem, Function.update_comm hne]

/-- Between `σ` and `σ'` the leader `i` has brought the peers `js` up to date. -/
structure Broadcast (Q : Finset (Fin n)) (i : Fin n) (js : List (Fin n)) (σ σ' : Cluster n C D) :
    Prop where
  leads : Leads Q i σ'
  term : (σ'.nodes i).currentTerm = (σ.nodes i).currentTerm
  log : SameLog (σ.nodes i) (σ'.nodes i)
  commit : (σ.nodes i).commitIndex ≤ (σ'.nodes i).commitIndex
  prompt : js ≠ [] ∨ (σ.nodes i).Prompt → (σ'.nodes i).Prompt
  applied : ∀ p, (σ'.nodes p).lastApplied = (σ.nodes p).lastApplied
  snapshot : ∀ p, (σ'.nodes p).lastIncludedIndex ≤
    max (σ.nodes i).lastIncludedIndex (σ.nodes p).lastIncludedIndex
  others : ∀ p, p ≠ i → p ∉ js → σ'.nodes p = σ.nodes p ∧
    (σ'.nodes i).matchIndex p = (σ.nodes i).matchIndex p
  matched : ∀ p ∈ js, (σ'.nodes i).matchIndex p = (σ.nodes i).getLen - 1
  entries : ∀ p ∈ js, ∀ k, (σ'.nodes i).lastIncludedIndex < k →
    (σ'.nodes p).lastIncludedIndex < k → k < (σ.nodes i).getLen →
      (σ'.nodes p).getLog k = (σ.nodes i).getLog k
  committed : ∀ p ∈ js,
    min (σ.nodes i).commitIndex ((σ'.nodes p).getLen - 1) ≤ (σ'.nodes p).commitIndex

/-- One peer is brought up to date. -/
theorem Leads.replicate (hσ : σ.Sound) (h : Leads Q i σ) (hj : j ∈ Q) (hne : j ≠ i) :
    ∃ σ', Reaches Q σ σ' ∧ Broadcast Q i [j] σ σ' := by
  obtain ⟨fuel, ld, fl, hrep, hdone⟩ := h.repairs hσ hj
  have hkeeps := replicate_keeps h.leader (h.terms j hj) hrep
  obtain ⟨hprompt, hcommitted⟩ := hkeeps.accepts rfl
  obtain ⟨σ', hr, hnodes⟩ := reaches_replicate h.mem hj hne hσ hrep
  have hi' : σ'.nodes i = ld := by rw [hnodes, Function.update_self]
  have hj' : σ'.nodes j = fl := by rw [hnodes, Function.update_of_ne hne, Function.update_self]
  have hothers : ∀ p, p ≠ i → p ≠ j → σ'.nodes p = σ.nodes p := by
    intro p hpi hpj
    rw [hnodes, Function.update_of_ne hpi, Function.update_of_ne hpj]
  have hlen : ld.getLen = (σ.nodes i).getLen := hkeeps.log.getLen
  refine ⟨σ', hr, ⟨h.mem, hi' ▸ hkeeps.leader, fun p hp => ?_⟩, hi' ▸ hkeeps.term, hi' ▸ hkeeps.log,
    hi' ▸ hkeeps.commit, fun _ => hi' ▸ hprompt, fun p => ?_, fun p => ?_, fun p hpi hp => ?_,
    fun p hp => ?_, fun p hp => ?_, fun p hp => ?_⟩
  · rw [hi', hkeeps.term]
    by_cases hpi : p = i
    · rw [hpi, hi', hkeeps.term]
    · by_cases hpj : p = j
      · rw [hpj, hj', hkeeps.peerTerm]
      · rw [hothers p hpi hpj]
        exact h.terms p hp
  · by_cases hpi : p = i
    · rw [hpi, hi', hkeeps.applied]
    · by_cases hpj : p = j
      · rw [hpj, hj', hkeeps.peerApplied]
      · rw [hothers p hpi hpj]
  · by_cases hpi : p = i
    · rw [hpi, hi', hkeeps.log.index, Nat.max_self]
    · by_cases hpj : p = j
      · rw [hpj, hj']
        exact hdone.snapshot
      · rw [hothers p hpi hpj]
        exact Nat.le_max_right _ _
  · rw [List.mem_singleton] at hp
    rw [hi']
    exact ⟨hothers p hpi hp, hkeeps.others p hp⟩
  · rw [List.mem_singleton.mp hp, hi', hdone.matched, hlen]
  · rw [List.mem_singleton.mp hp, hi', hj']
    intro k hk hk' hlt
    obtain ⟨e, he, he'⟩ := hdone.entries k hk hk' (hlen.symm ▸ hlt)
    rw [he', ← hkeeps.log.getLog, he]
  · rw [List.mem_singleton.mp hp, hj']
    exact hcommitted

/-- All peers are brought up to date, one after the other. -/
theorem Leads.broadcast {js : List (Fin n)} : ∀ {σ : Cluster n C D}, σ.Sound → Leads Q i σ →
    (∀ j ∈ js, j ∈ Q ∧ j ≠ i) → js.Nodup → ∃ σ', Reaches Q σ σ' ∧ Broadcast Q i js σ σ' := by
  induction js with
  | nil =>
    intro σ _ h _ _
    exact ⟨σ, .refl Q σ, h, rfl, ⟨rfl, rfl, rfl⟩, Nat.le_refl _,
      fun h => h.resolve_left (not_not.mpr rfl),
      fun _ => rfl, fun _ => Nat.le_max_right _ _, fun _ _ _ => ⟨rfl, rfl⟩,
      fun p hp => absurd hp List.not_mem_nil, fun p hp => absurd hp List.not_mem_nil,
      fun p hp => absurd hp List.not_mem_nil⟩
  | cons j js ih =>
    intro σ hσ h hjs hnodup
    obtain ⟨hj, hji⟩ := hjs j (List.mem_cons_self ..)
    obtain ⟨hnot, hnodup⟩ := List.nodup_cons.mp hnodup
    obtain ⟨σ₁, hr₁, h₁⟩ := h.replicate hσ hj hji
    obtain ⟨σ₂, hr₂, h₂⟩ := ih (hσ.reaches hr₁) h₁.leads
      (fun k hk => hjs k (List.mem_cons_of_mem _ hk)) hnodup
    have hlen : (σ₁.nodes i).getLen = (σ.nodes i).getLen := h₁.log.getLen
    have hsnap : (σ₁.nodes i).lastIncludedIndex = (σ.nodes i).lastIncludedIndex := h₁.log.index
    -- The first peer is left alone while the others are served.
    obtain ⟨hsame, hmatch⟩ := h₂.others j hji hnot
    refine ⟨σ₂, hr₁.trans hr₂, h₂.leads, h₂.term.trans h₁.term,
      ⟨h₂.log.logs.trans h₁.log.logs, h₂.log.index.trans h₁.log.index,
        h₂.log.term.trans h₁.log.term⟩, h₁.commit.trans h₂.commit, fun _ => ?_,
      fun p => (h₂.applied p).trans (h₁.applied p), fun p => ?_, fun p hpi hp => ?_,
      fun p hp => ?_, fun p hp => ?_, fun p hp => ?_⟩
    · exact h₂.prompt (Or.inr (h₁.prompt (Or.inl (List.cons_ne_nil _ _))))
    · have hle := h₁.snapshot p
      have hle' := h₂.snapshot p
      rw [hsnap] at hle'
      omega
    · rw [List.mem_cons, not_or] at hp
      obtain ⟨hs₁, hm₁⟩ := h₁.others p hpi (by simpa using hp.1)
      obtain ⟨hs₂, hm₂⟩ := h₂.others p hpi hp.2
      exact ⟨hs₂.trans hs₁, hm₂.trans hm₁⟩
    · rcases List.mem_cons.mp hp with rfl | hp
      · rw [hmatch, h₁.matched p (List.mem_cons_self ..)]
      · rw [h₂.matched p hp, hlen]
    · rcases List.mem_cons.mp hp with rfl | hp
      · rw [hsame, h₂.log.index]
        exact h₁.entries p (List.mem_cons_self ..)
      · intro k hk hk' hlt
        rw [h₂.entries p hp k hk hk' (hlen.symm ▸ hlt), h₁.log.getLog]
    · rcases List.mem_cons.mp hp with rfl | hp
      · rw [hsame]
        exact h₁.committed p (List.mem_cons_self ..)
      · have hle := h₂.committed p hp
        have hcommit := h₁.commit
        omega

/-! ## The appliers go on -/

/-- The applier of `i` sends everything that it holds. -/
theorem reaches_send (hi : i ∈ Q) : ∀ {σ : Cluster n C D}, ∃ σ', Reaches Q σ σ' ∧
    σ'.nodes = Function.update σ.nodes i
      { σ.nodes i with
        applying := []
        applyCh := (σ.nodes i).applyCh ++ (σ.nodes i).applying } := by
  intro σ
  induction h : (σ.nodes i).applying generalizing σ with
  | nil =>
    refine ⟨σ, .refl Q σ, ?_⟩
    rw [List.append_nil, ← h, Function.update_eq_self]
  | cons msg rest ih =>
    have hsend : (σ.nodes i).applierSend = { σ.nodes i with
        applying := rest
        applyCh := (σ.nodes i).applyCh ++ [msg] } := by rw [Raft.applierSend, h]
    have hstep : Reaches Q σ (σ.setNode i (σ.nodes i).applierSend) :=
      .step (.applierSend i) hi (by rw [Cluster.Enabled, h]; exact List.cons_ne_nil _ _) rfl
    have hself : (σ.setNode i (σ.nodes i).applierSend).nodes i = (σ.nodes i).applierSend :=
      Function.update_self ..
    obtain ⟨σ', hr, hnodes⟩ := ih (σ := σ.setNode i (σ.nodes i).applierSend) (by rw [hself, hsend])
    refine ⟨σ', hstep.trans hr, ?_⟩
    rw [hnodes, hself, hsend, Cluster.setNode, Function.update_idem]
    simp only [List.append_assoc, List.singleton_append]

/-- An idle applier of `i` takes what is to be sent next, and sends it. -/
theorem Cluster.Sound.apply (hσ : σ.Sound) (hi : i ∈ Q) (hidle : (σ.nodes i).applying = [])
    (hlt : (σ.nodes i).lastApplied < (σ.nodes i).commitIndex) :
    ∃ rf σ', (σ.nodes i).applierTake = some rf ∧ Reaches Q σ σ' ∧
      σ'.nodes = Function.update σ.nodes i
        { rf with applying := [], applyCh := rf.applyCh ++ rf.applying } := by
  obtain ⟨σ₁, hexec, _⟩ := hσ.exec (e := .applierTake i) ⟨hidle, hlt⟩
  obtain ⟨rf, htake, hdone⟩ := Option.bind_eq_some_iff.mp hexec
  cases hdone
  obtain ⟨σ', hr, hnodes⟩ := reaches_send (Q := Q) (σ := σ.setNode i rf) hi
  refine ⟨rf, σ', htake, (Reaches.step (.applierTake i) hi ⟨hidle, hlt⟩ hexec).trans hr, ?_⟩
  have hself : (σ.setNode i rf).nodes i = rf := Function.update_self ..
  rw [hnodes, hself]
  exact Function.update_idem ..

/-- A batch of commands contains every command up to the commit index. -/
theorem mem_applierTake {rf rf' : Raft n C D} {k : Nat} {e : Entry C}
    (hsnap : rf.lastIncludedIndex ≤ rf.lastApplied) (hlow : rf.lastApplied < k)
    (hhigh : k ≤ rf.commitIndex) (he : rf.getLog k = some e) (h : rf.applierTake = some rf') :
    .command e.command e.index ∈ rf'.applying := by
  rw [Raft.applierTake, if_neg (Nat.not_lt_of_le hsnap)] at h
  obtain ⟨entries, hslice, hdone⟩ := Option.bind_eq_some_iff.mp h
  cases hdone
  refine List.mem_map.mpr ⟨e, ?_, rfl⟩
  unfold GoSlice.slice at hslice
  split_ifs at hslice with hrange
  cases hslice
  rw [getLog_eq_getElem? rf (by omega)] at he
  unfold Raft.getPhysicalIndex at hrange ⊢
  refine List.mem_of_getElem? (i := k - (rf.lastApplied + 1)) ?_
  rw [List.getElem?_take_of_lt (by omega), List.getElem?_drop, ← he]
  congr 1
  omega

/-- A committed command that has not been taken is delivered, and nobody else
notices. -/
theorem Cluster.Sound.deliver (hσ : σ.Sound) (hi : i ∈ Q) {k : Nat} {e : Entry C}
    (hsnap : (σ.nodes i).lastIncludedIndex < k) (hlow : (σ.nodes i).lastApplied < k)
    (hhigh : k ≤ (σ.nodes i).commitIndex) (he : (σ.nodes i).getLog k = some e) :
    ∃ σ', Reaches Q σ σ' ∧ .command e.command e.index ∈ (σ'.nodes i).applyCh ∧
      (σ'.nodes i).getLog k = some e ∧ ∀ p, p ≠ i → σ'.nodes p = σ.nodes p := by
  -- What the applier already holds goes first.
  obtain ⟨σ₁, hr₁, hnodes₁⟩ := reaches_send (σ := σ) hi
  have hi₁ : σ₁.nodes i = { σ.nodes i with
      applying := []
      applyCh := (σ.nodes i).applyCh ++ (σ.nodes i).applying } := by
    rw [hnodes₁, Function.update_self]
  have hothers₁ : ∀ p, p ≠ i → σ₁.nodes p = σ.nodes p := by
    intro p hp
    rw [hnodes₁, Function.update_of_ne hp]
  -- Then a snapshot that the applier has not reached.
  obtain ⟨σ₂, hr₂, hidle₂, hsnap₂, hlow₂, hhigh₂, he₂, hothers₂⟩ : ∃ σ₂, Reaches Q σ₁ σ₂ ∧
      (σ₂.nodes i).applying = [] ∧
      (σ₂.nodes i).lastIncludedIndex ≤ (σ₂.nodes i).lastApplied ∧
      (σ₂.nodes i).lastApplied < k ∧ k ≤ (σ₂.nodes i).commitIndex ∧
      (σ₂.nodes i).getLog k = some e ∧ ∀ p, p ≠ i → σ₂.nodes p = σ₁.nodes p := by
    by_cases hbehind : (σ.nodes i).lastApplied < (σ.nodes i).lastIncludedIndex
    · obtain ⟨rf, σ₂, htake, hr₂, hnodes₂⟩ := (hσ.reaches hr₁).apply hi (by rw [hi₁])
        (by rw [hi₁]; exact Nat.lt_of_lt_of_le hlow hhigh)
      rw [hi₁, Raft.applierTake, if_pos (by exact hbehind)] at htake
      cases htake
      have hi₂ := congrFun hnodes₂ i
      rw [Function.update_self] at hi₂
      refine ⟨σ₂, hr₂, ?_⟩
      rw [hi₂]
      exact ⟨rfl, Nat.le_refl _, hsnap, hhigh, he, fun p hp => by
        rw [hnodes₂, Function.update_of_ne hp]⟩
    · exact ⟨σ₁, .refl Q σ₁, by rw [hi₁], by rw [hi₁]; exact Nat.le_of_not_lt hbehind,
        by rw [hi₁]; exact hlow, by rw [hi₁]; exact hhigh, by rw [hi₁]; exact he, fun _ _ => rfl⟩
  -- Then the commands.
  obtain ⟨rf, σ₃, htake, hr₃, hnodes₃⟩ := (hσ.reaches (hr₁.trans hr₂)).apply hi hidle₂
    (Nat.lt_of_lt_of_le hlow₂ hhigh₂)
  refine ⟨σ₃, (hr₁.trans hr₂).trans hr₃, ?_, ?_, fun p hp => ?_⟩
  · rw [hnodes₃, Function.update_self]
    exact List.mem_append_right _ (mem_applierTake hsnap₂ hlow₂ hhigh₂ he₂ htake)
  · rw [hnodes₃, Function.update_self, applierTake_eq htake]
    exact he₂
  · rw [hnodes₃, Function.update_of_ne hp, hothers₂ p hp, hothers₁ p hp]

/-- All members of a list deliver a command that they have committed. -/
theorem Cluster.Sound.deliverAll {is : List (Fin n)} {k : Nat} {e : Entry C} :
    ∀ {σ : Cluster n C D}, σ.Sound → is.Nodup → (∀ i ∈ is, i ∈ Q ∧
      (σ.nodes i).lastIncludedIndex < k ∧ (σ.nodes i).lastApplied < k ∧
      k ≤ (σ.nodes i).commitIndex ∧ (σ.nodes i).getLog k = some e) →
    ∃ σ', Reaches Q σ σ' ∧ (∀ i ∈ is, .command e.command e.index ∈ (σ'.nodes i).applyCh ∧
      (σ'.nodes i).getLog k = some e) ∧ ∀ p, p ∉ is → σ'.nodes p = σ.nodes p := by
  induction is with
  | nil =>
    intro σ _ _ _
    exact ⟨σ, .refl Q σ, fun i hi => absurd hi List.not_mem_nil, fun _ _ => rfl⟩
  | cons i is ih =>
    intro σ hσ hnodup h
    obtain ⟨hnot, hnodup⟩ := List.nodup_cons.mp hnodup
    obtain ⟨hi, hsnap, hlow, hhigh, he⟩ := h i (List.mem_cons_self ..)
    obtain ⟨σ₁, hr₁, hmem, hlog, hothers₁⟩ := hσ.deliver hi hsnap hlow hhigh he
    obtain ⟨σ₂, hr₂, hall, hothers₂⟩ := ih (hσ.reaches hr₁) hnodup (by
      intro j hj
      rw [hothers₁ j fun hji => hnot (hji ▸ hj)]
      exact h j (List.mem_cons_of_mem _ hj))
    refine ⟨σ₂, hr₁.trans hr₂, fun j hj => ?_, fun p hp => ?_⟩
    · rcases List.mem_cons.mp hj with rfl | hj
      · rw [hothers₂ j hnot]
        exact ⟨hmem, hlog⟩
      · exact hall j hj
    · rw [List.mem_cons, not_or] at hp
      rw [hothers₂ p hp.2, hothers₁ p hp.1]

/-! ## The way of a command -/

/-- Among `Q` there is a way to a leader that accepts the command, and then a
way to a state in which every member of `Q` has delivered it, at the index and
in the term that `Start` returned. -/
def CanApply (Q : Finset (Fin n)) (command : Option C) (σ : Cluster n C D) : Prop :=
  ∃ σ₁ leader index term, Reaches Q σ σ₁ ∧ leader ∈ Q ∧
    ((σ₁.nodes leader).start command).2 = some (index, term) ∧
    ∃ σ₂, Reaches Q (σ₁.setNode leader ((σ₁.nodes leader).start command).1) σ₂ ∧
      ∀ i ∈ Q, .command command index ∈ (σ₂.nodes i).applyCh ∧
        (σ₂.nodes i).getLog index = some ⟨index, term, command⟩

/-- When the peers in `Q` have the whole log, the last entry is committed, if it
is of the leader's term. -/
theorem Broadcast.commits (hQ : IsQuorum Q) (hn : 2 ≤ n) (hσ' : σ'.Sound)
    (h : Broadcast Q i (Q.erase i).toList σ σ') {k : Nat} {e : Entry C}
    (hk : k + 1 = (σ.nodes i).getLen) (he : (σ.nodes i).getLog k = some e)
    (hterm : e.term = (σ.nodes i).currentTerm) : k ≤ (σ'.nodes i).commitIndex := by
  have hcard : (Q.erase i).card + 1 = Q.card := Finset.card_erase_add_one h.leads.mem
  have hquorum : n < 2 * Q.card := by
    have := hQ
    rw [IsQuorum, Fintype.card_fin] at this
    exact this
  have hne : (Q.erase i).toList ≠ [] := by
    rw [← List.length_pos_iff, Finset.length_toList]
    omega
  by_contra hlt
  refine h.prompt (Or.inl hne) k (Nat.lt_of_not_le hlt) (by rw [h.log.getLen]; omega)
    ⟨⟨e, by rw [h.log.getLog]; exact he, by rw [h.term]; exact hterm⟩, ?_⟩
  have hcount : (Q.erase i).card ≤ (Finset.univ.filter fun p =>
      p ≠ (σ'.nodes i).me ∧ k ≤ (σ'.nodes i).matchIndex p).card := by
    refine Finset.card_le_card fun p hp => Finset.mem_filter.mpr ⟨Finset.mem_univ p, ?_, ?_⟩
    · rw [hσ'.me i]
      exact (Finset.mem_erase.mp hp).1
    · rw [h.matched p (Finset.mem_toList.mpr hp)]
      omega
  rw [Raft.countNodesWithLogAt]
  omega

/-- A leader can bring a command to every member of `Q`. -/
theorem Leads.canApply (hσ : σ.Sound) (h : Leads Q i σ) (hQ : IsQuorum Q) (hn : 2 ≤ n)
    (command : Option C) : CanApply Q command σ := by
  obtain ⟨σ₀, hσ₀⟩ : ∃ σ₀, σ₀ = σ.setNode i ((σ.nodes i).start command).1 := ⟨_, rfl⟩
  have hsound₀ : σ₀.Sound := hσ.of_exec (e := .start i command) trivial (by rw [hσ₀]; rfl)
  obtain ⟨entry, hentry⟩ : ∃ entry : Entry C,
    entry = ⟨(σ.nodes i).getLen, (σ.nodes i).currentTerm, command⟩ := ⟨_, rfl⟩
  have hi₀ : σ₀.nodes i = ({ σ.nodes i with logs := (σ.nodes i).logs ++ [entry] } :
      Raft n C D).persist := by
    rcases start_inv (σ.nodes i) command with ⟨hnot, _⟩ | ⟨_, hstart⟩
    · exact absurd h.leader hnot
    · rw [hσ₀, hentry, ← hstart]
      exact Function.update_self ..
  have hothers₀ : ∀ p, p ≠ i → σ₀.nodes p = σ.nodes p := by
    intro p hp
    rw [hσ₀]
    exact Function.update_of_ne hp ..
  rw [persist_keeps] at hi₀
  have hlen₀ : (σ₀.nodes i).getLen = (σ.nodes i).getLen + 1 := by
    rw [hi₀, Raft.getLen, Raft.getLen, List.length_append, List.length_singleton]
    exact (Nat.add_assoc _ _ _).symm
  have hterm₀ : (σ₀.nodes i).currentTerm = (σ.nodes i).currentTerm := by rw [hi₀]
  have hleads₀ : Leads Q i σ₀ := by
    refine ⟨h.mem, by rw [hi₀]; exact h.leader, fun p hp => ?_⟩
    rw [hterm₀]
    by_cases hpi : p = i
    · rw [hpi, hterm₀]
    · rw [hothers₀ p hpi]
      exact h.terms p hp
  have hget₀ : (σ₀.nodes i).getLog (σ.nodes i).getLen = some entry := by
    have hle : (σ.nodes i).lastIncludedIndex ≤ (σ.nodes i).getLen := Nat.le_add_right _ _
    rw [getLog_eq_getElem? _ (by rw [hi₀]; exact hle), hi₀]
    show ((σ.nodes i).logs ++ [entry])[(σ.nodes i).getLen - (σ.nodes i).lastIncludedIndex]? = _
    rw [Raft.getLen, Nat.add_sub_cancel_left, List.getElem?_append_right (Nat.le_refl _),
      Nat.sub_self]
    rfl
  -- Nobody in `Q` is beyond the new entry.
  have hbehind : ∀ p ∈ Q, (σ₀.nodes p).lastIncludedIndex < (σ.nodes i).getLen ∧
      (σ₀.nodes p).lastApplied < (σ.nodes i).getLen := by
    intro p hp
    have hcommit : (σ₀.nodes p).commitIndex < (σ.nodes i).getLen := by
      by_cases hpi : p = i
      · rw [hpi, hi₀]
        exact h.commitIndex_lt hσ h.mem
      · rw [hothers₀ p hpi]
        exact h.commitIndex_lt hσ hp
    have hok := hsound₀.logOk p
    exact ⟨Nat.lt_of_le_of_lt hok.snapshot hcommit, Nat.lt_of_le_of_lt hok.applied hcommit⟩
  have hjs : ∀ j ∈ (Q.erase i).toList, j ∈ Q ∧ j ≠ i := fun j hj =>
    (Finset.mem_erase.mp (Finset.mem_toList.mp hj)).symm
  -- Once for the entries, and once for the commit index.
  obtain ⟨σ₁, hr₁, hb₁⟩ := hleads₀.broadcast hsound₀ hjs (Finset.nodup_toList _)
  have hsound₁ := hsound₀.reaches hr₁
  have hcommit₁ := hb₁.commits hQ hn hsound₁ hlen₀.symm hget₀ (by rw [hterm₀, hentry])
  obtain ⟨σ₂, hr₂, hb₂⟩ := hb₁.leads.broadcast hsound₁ hjs (Finset.nodup_toList _)
  have hsound₂ := hsound₁.reaches hr₂
  have hlen₁ : (σ₁.nodes i).getLen = (σ.nodes i).getLen + 1 := hb₁.log.getLen.trans hlen₀
  have hready : ∀ p ∈ Q.toList, p ∈ Q ∧ (σ₂.nodes p).lastIncludedIndex < (σ.nodes i).getLen ∧
      (σ₂.nodes p).lastApplied < (σ.nodes i).getLen ∧
      (σ.nodes i).getLen ≤ (σ₂.nodes p).commitIndex ∧
      (σ₂.nodes p).getLog (σ.nodes i).getLen = some entry := by
    intro p hp
    have hpQ := Finset.mem_toList.mp hp
    have hsnap₂ : (σ₂.nodes p).lastIncludedIndex < (σ.nodes i).getLen := by
      have := hb₂.snapshot p
      have := hb₁.snapshot p
      have := hb₁.log.index
      have := (hbehind p hpQ).1
      have := (hbehind i h.mem).1
      omega
    have happlied₂ : (σ₂.nodes p).lastApplied < (σ.nodes i).getLen := by
      rw [hb₂.applied, hb₁.applied]
      exact (hbehind p hpQ).2
    refine ⟨hpQ, hsnap₂, happlied₂, ?_⟩
    by_cases hpi : p = i
    · subst hpi
      exact ⟨hcommit₁.trans hb₂.commit, by rw [hb₂.log.getLog, hb₁.log.getLog]; exact hget₀⟩
    · have hmem : p ∈ (Q.erase i).toList :=
        Finset.mem_toList.mpr (Finset.mem_erase.mpr ⟨hpi, hpQ⟩)
      have hentry₂ : (σ₂.nodes p).getLog (σ.nodes i).getLen = some entry := by
        rw [hb₂.entries p hmem _ ?_ hsnap₂ (by omega), hb₁.log.getLog]
        · exact hget₀
        · rw [hb₂.log.index, hb₁.log.index]
          exact (hbehind i h.mem).1
      have hlt := lt_getLen_of_getLog (Nat.le_of_lt hsnap₂) hentry₂
      have hle := hb₂.committed p hmem
      exact ⟨by omega, hentry₂⟩
  obtain ⟨σ₃, hr₃, hall, _⟩ := hsound₂.deliverAll (Finset.nodup_toList _) hready
  refine ⟨σ, i, (σ.nodes i).getLen, (σ.nodes i).currentTerm, .refl Q σ, h.mem, ?_, σ₃, ?_,
    fun p hp => ?_⟩
  · rw [Raft.start, if_neg (not_not.mpr h.leader)]
  · rw [← hσ₀]
    exact (hr₁.trans hr₂).trans hr₃
  · have hdelivered := hall p (Finset.mem_toList.mpr hp)
    rw [hentry] at hdelivered
    exact hdelivered

/-- A majority can always apply a command. -/
theorem majority_canApply (run : ClusterRun n C D) (t : Nat) (hn : 2 ≤ n) (hQ : IsQuorum Q)
    (command : Option C) : CanApply Q command (run.state t) := by
  obtain ⟨σ₁, i, hr, hleads⟩ := (run.sound t).exists_leads hQ hn
  obtain ⟨σ₂, leader, index, term, hr₂, hrest⟩ :=
    hleads.canApply ((run.sound t).reaches hr) hQ hn command
  exact ⟨σ₂, leader, index, term, hr.trans hr₂, hrest⟩

/-- Node 0 has led, lost its first command with a crash, and is a candidate. -/
def wornEvents : List (Event 3 Nat Nat) :=
  [.electionTimeout node0, .deliver 0, .handleReply 0 (.requestVote ⟨0, true⟩),
    .start node0 (some 5), .restart node0, .electionTimeout node0]

/-- Nodes 1 and 2 can go on without it. -/
theorem worn_canApply : 2 ≤ 3 ∧ IsQuorum ({node1, node2} : Finset (Fin 3)) ∧
    CanApply {node1, node2} (some 7) ((ClusterRun.ofEvents wornEvents).state 6) :=
  have hQ : IsQuorum ({node1, node2} : Finset (Fin 3)) := by
    unfold IsQuorum
    decide
  ⟨by decide, hQ, majority_canApply (ClusterRun.ofEvents wornEvents) 6 (by decide) hQ (some 7)⟩

/-- A cluster of one node never has a leader, as only the reply of a peer makes
one, and it accepts no command. -/
theorem alone_never_leads (run : ClusterRun 1 C D) (t : Nat) (i : Fin 1) :
    (run.node t i).state ≠ .leader ∧
      ∀ command, (run.node t i).start command = (run.node t i, none) := by
  have hstate := run.state_ne_leader_of_alone t i
  exact ⟨hstate, fun command => if_pos hstate⟩

end KvRaft
