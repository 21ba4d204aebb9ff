import KvRaft.Cluster.Backtracking
import KvRaft.Cluster.Safety
import Mathlib.Data.Finset.Max
import Mathlib.Data.Prod.Lex

/-!
# A majority can elect a leader

`Q` is a majority of the nodes, and the others do not take part: no event
among `Q` needs them, no node restarts, and no message from outside arrives.
From every state that a cluster can be in, there is a way among `Q` to a leader
whose term nobody in `Q` exceeds.

The candidate is the member of `Q` with the best log, because it gets every
vote of `Q`.  The way to its election has three parts.

* `Sound.dethrone`: an old leader does not stand for election.  It finds out
  about the higher term when it replicates to a peer that has it.
* `Sound.raise`: elections without votes raise the candidate's term.
* `Polling.elect`: in a term above everybody's, each peer that is asked grants
  its vote, and the vote that completes a majority makes the leader.

The last part needs a peer.  `requestVoteFromPeer` compares the counter with
the majority, and `startElection` does not, so a node alone stays a candidate
for ever.
-/

namespace KvRaft

open Consensus Relation

variable {n : Nat} {C D : Type} {Q : Finset (Fin n)} {σ σ' : Cluster n C D} {i j : Fin n}

/-! ## Ways among some nodes -/

/-- Nobody outside `Q` takes part in the event, nobody crashes, and no client
calls. -/
def Event.Among (Q : Finset (Fin n)) (σ : Cluster n C D) : Event n C D → Prop
  | .electionTimeout i => i ∈ Q
  | .replicate i peer => i ∈ Q ∧ peer ∈ Q
  | .deliver r => ∃ rpc, σ.rpcs[r]? = some rpc ∧ rpc.src ∈ Q ∧ rpc.dst ∈ Q
  | .handleReply r _ => ∃ rpc, σ.rpcs[r]? = some rpc ∧ rpc.src ∈ Q ∧ rpc.dst ∈ Q
  | .applierTake i => i ∈ Q
  | .applierSend i => i ∈ Q
  | _ => False

namespace Cluster

/-- One event among `Q`. -/
def StepAmong (Q : Finset (Fin n)) (σ σ' : Cluster n C D) : Prop :=
  ∃ e : Event n C D, e.Among Q σ ∧ σ.Enabled e ∧ σ.exec e = some σ'

/-- Some events among `Q` lead from `σ` to `σ'`. -/
def Reaches (Q : Finset (Fin n)) : Cluster n C D → Cluster n C D → Prop :=
  ReflTransGen (StepAmong Q)

theorem Reaches.refl (Q : Finset (Fin n)) (σ : Cluster n C D) : Reaches Q σ σ :=
  ReflTransGen.refl

theorem Reaches.trans {σ'' : Cluster n C D} (h : Reaches Q σ σ') (h' : Reaches Q σ' σ'') :
    Reaches Q σ σ'' := ReflTransGen.trans h h'

theorem Reaches.step (e : Event n C D) (hQ : e.Among Q σ) (he : σ.Enabled e)
    (h : σ.exec e = some σ') : Reaches Q σ σ' := .single ⟨e, hQ, he, h⟩

/-- The cluster shows a state of the protocol, as every reachable cluster
does. -/
def Sound (σ : Cluster n C D) : Prop := ∃ a : Abs n C, a.Inv ∧ Sim (fun _ _ => True) σ a

theorem Sound.exec (h : σ.Sound) {e : Event n C D} (he : σ.Enabled e) :
    ∃ σ', σ.exec e = some σ' ∧ σ'.Sound := by
  obtain ⟨a, hI, hS⟩ := h
  have hsnap : SnapOk (fun _ _ => True) σ a e := by
    cases e with
    | snapshot i index data => exact fun _ _ => trivial
    | _ => trivial
  obtain ⟨σ', a', hexec, href⟩ := exec_refines hI hS he hsnap
  exact ⟨σ', hexec, a', (State.inv_of_steps hI href.steps).1, href.sim⟩

theorem Sound.of_exec (h : σ.Sound) {e : Event n C D} (he : σ.Enabled e)
    (hexec : σ.exec e = some σ') : σ'.Sound := by
  obtain ⟨σ₁, hexec₁, hσ₁⟩ := h.exec he
  cases hexec.symm.trans hexec₁
  exact hσ₁

theorem Sound.reaches (h : σ.Sound) (hr : Reaches Q σ σ') : σ'.Sound := by
  induction hr with
  | refl => exact h
  | tail _ hstep ih =>
    obtain ⟨e, _, he, hexec⟩ := hstep
    exact ih.of_exec he hexec

theorem Sound.me (h : σ.Sound) (i : Fin n) : (σ.nodes i).me = i := by
  obtain ⟨a, _, hS⟩ := h
  exact (hS.node i).me

theorem Sound.logOk (h : σ.Sound) (i : Fin n) : LogOk (σ.nodes i) := by
  obtain ⟨a, hI, hS⟩ := h
  exact (hS.node i).toNodeCore.logOk hI

end Cluster

open Cluster

/-- Every state of a run is sound. -/
theorem ClusterRun.sound (run : ClusterRun n C D) (t : Nat) : (run.state t).Sound := by
  induction t with
  | zero =>
    rw [run.start]
    exact ⟨State.initial, State.inv_initial, sim_init trivial⟩
  | succ t ih =>
    rcases run.next t with ⟨e, he, hexec⟩ | hsame
    · exact ih.of_exec he hexec
    · rw [hsame]
      exact ih

/-! ## A round between two nodes -/

theorem replicationRound_inv {ld fl ld' fl' : Raft n C D} {peer : Fin n} {accepted : Bool}
    (h : replicationRound peer ld fl = some ((ld', fl'), accepted)) :
    ∃ args reply, ld.replicateToPeer peer = some (some args) ∧
      handleRequest fl args = some (fl', reply) ∧
      handleReply ld ⟨ld.me, peer, args, 0⟩ reply = some ld' ∧ accepted = reply.accepts := by
  obtain ⟨args?, hsend, hsent⟩ := Option.bind_eq_some_iff.mp h
  obtain ⟨args, rfl, hcalled⟩ := Option.bind_eq_some_iff.mp hsent
  obtain ⟨⟨fl₁, reply⟩, hreq, hreplied⟩ := Option.bind_eq_some_iff.mp hcalled
  obtain ⟨ld₁, hrep, hdone⟩ := Option.bind_eq_some_iff.mp hreplied
  cases hdone
  exact ⟨args, reply, hsend, hreq, hrep, rfl⟩

/-- A waiting call is answered: its request is handled and the reply taken. -/
theorem reaches_answer (hi : i ∈ Q) (hj : j ∈ Q) (hne : j ≠ i) {r votes : Nat}
    {args : RpcArgs n C D} {ld fl : Raft n C D} {reply : RpcReply} (hwait : r ∈ σ.waiting)
    (hrpc : σ.rpcs[r]? = some ⟨i, j, args, votes⟩)
    (hreq : handleRequest (σ.nodes j) args = some (fl, reply))
    (hrep : handleReply (σ.nodes i) ⟨i, j, args, votes⟩ reply = some ld) :
    Reaches Q σ
      { nodes := Function.update (Function.update σ.nodes j fl) i ld
        rpcs := σ.rpcs
        waiting := σ.waiting.erase r
        replies := σ.replies ++ [(r, reply)] } := by
  obtain ⟨σ₁, hσ₁⟩ : ∃ σ₁, σ₁ = ({ σ.setNode j fl with
    replies := σ.replies ++ [(r, reply)] } : Cluster n C D) := ⟨_, rfl⟩
  have hdeliver : Reaches Q σ σ₁ := by
    refine .step (.deliver r) ⟨_, hrpc, hi, hj⟩ (List.getElem?_eq_some_iff.mp hrpc).1 ?_
    simp only [Cluster.exec, hrpc, hreq, Option.bind_eq_bind, Option.bind_some, hσ₁]
  have hrpc₁ : σ₁.rpcs[r]? = some ⟨i, j, args, votes⟩ := by
    rw [hσ₁]
    exact hrpc
  have hnode : σ₁.nodes i = σ.nodes i := by
    rw [hσ₁]
    exact Function.update_of_ne hne.symm ..
  refine hdeliver.trans (.step (.handleReply r reply) ⟨_, hrpc₁, hi, hj⟩ ⟨?_, ?_⟩ ?_)
  · rw [hσ₁]
    exact hwait
  · rw [hσ₁]
    exact List.mem_append_right _ (List.mem_singleton_self _)
  · simp only [Cluster.exec, hrpc₁, hnode, hrep, Option.bind_eq_bind, Option.bind_some]
    rw [hσ₁]
    rfl

/-- The three events of a round: the call, the handler and the reply. -/
theorem reaches_round (hi : i ∈ Q) (hj : j ∈ Q) (hne : j ≠ i) (hme : (σ.nodes i).me = i)
    {ld fl : Raft n C D} {accepted : Bool}
    (h : replicationRound j (σ.nodes i) (σ.nodes j) = some ((ld, fl), accepted)) :
    ∃ σ', Reaches Q σ σ' ∧
      σ'.nodes = Function.update (Function.update σ.nodes j fl) i ld := by
  obtain ⟨args, reply, hsend, hreq, hrep, _⟩ := replicationRound_inv h
  rw [hme] at hrep
  have hcall : Reaches Q σ (σ.call [⟨i, j, args, 0⟩]) := by
    refine .step (.replicate i j) ⟨hi, hj⟩ hne ?_
    simp only [Cluster.exec, hsend, Option.bind_eq_bind, Option.bind_some]
  refine ⟨_, hcall.trans (reaches_answer (r := σ.rpcs.length) hi hj hne ?_ ?_ hreq hrep), rfl⟩
  · simp [Cluster.call]
  · simp [Cluster.call]

/-! ## An old leader -/

theorem replicateToPeer_term {ld : Raft n C D} {args : RpcArgs n C D} {peer : Fin n}
    (h : ld.replicateToPeer peer = some (some args)) :
    (∃ a, args = .appendEntries a ∧ a.term = ld.currentTerm) ∨
      ∃ a, args = .installSnapshot a ∧ a.term = ld.currentTerm := by
  obtain ⟨_, ⟨_, rfl⟩ | ⟨_, args', hargs, rfl⟩⟩ := replicateToPeer_inv h
  · exact Or.inr ⟨_, rfl, rfl⟩
  · obtain ⟨_, _, hargs⟩ := Option.bind_eq_some_iff.mp hargs
    obtain ⟨_, _, hargs⟩ := Option.bind_eq_some_iff.mp hargs
    cases hargs
    exact Or.inl ⟨_, rfl, rfl⟩

/-- A leader that calls a peer of a higher term steps down, and the peer ignores
the request. -/
theorem replicationRound_stale {ld fl : Raft n C D} {args : RpcArgs n C D} {peer : Fin n}
    (hterm : ld.currentTerm < fl.currentTerm)
    (hsend : ld.replicateToPeer peer = some (some args)) :
    replicationRound peer ld fl =
      some (((ld.handleHigherTerm fl.currentTerm).1, fl), false) := by
  have hhigher : ld.handleHigherTerm fl.currentTerm =
      ({ ld with
        currentTerm := fl.currentTerm, votedFor := none, state := .follower }.persist, true) :=
    if_pos hterm
  rcases replicateToPeer_term hsend with ⟨a, rfl, ha⟩ | ⟨a, rfl, ha⟩
  · have hreq : fl.appendEntries a = some (fl, ⟨fl.currentTerm, false, 0, some 0⟩) :=
      if_pos (ha ▸ hterm)
    refine replicationRound_append _ hsend hreq ?_
    simp [Raft.handleAppendEntriesReply, Raft.shouldIgnoreReply, hhigher]
  · have hreq : fl.installSnapshot a = some (fl, ⟨fl.currentTerm⟩) := if_pos (ha ▸ hterm)
    simp [replicationRound, hsend, Cluster.handleRequest, hreq, Cluster.handleReply,
      Raft.handleInstallSnapshotReply, hhigher, RpcReply.accepts]

/-- The same, as events. -/
theorem Cluster.Sound.dethrone (hσ : σ.Sound) (hi : i ∈ Q) (hj : j ∈ Q)
    (hl : (σ.nodes i).state = .leader)
    (hterm : (σ.nodes i).currentTerm < (σ.nodes j).currentTerm) :
    ∃ σ', Reaches Q σ σ' ∧ (σ'.nodes i).state = .follower ∧
      (σ'.nodes i).logs = (σ.nodes i).logs ∧ ∀ k, k ≠ i → σ'.nodes k = σ.nodes k := by
  have hne : j ≠ i := by
    rintro rfl
    exact Nat.lt_irrefl _ hterm
  obtain ⟨σ₁, hexec, _⟩ := hσ.exec (e := .replicate i j) hne
  obtain ⟨args?, hsend, _⟩ := Option.bind_eq_some_iff.mp hexec
  obtain ⟨args, rfl⟩ : ∃ args, args? = some args := by
    cases args? with
    | some args => exact ⟨args, rfl⟩
    | none =>
      unfold Raft.replicateToPeer at hsend
      rw [if_neg (not_not.mpr hl)] at hsend
      split_ifs at hsend
      · cases hsend
      · obtain ⟨_, _, h⟩ := Option.bind_eq_some_iff.mp hsend
        cases h
  obtain ⟨σ', hr, hnodes⟩ := reaches_round hi hj hne (hσ.me i)
    (replicationRound_stale hterm hsend)
  have hself : σ'.nodes i = ((σ.nodes i).handleHigherTerm (σ.nodes j).currentTerm).1 := by
    rw [hnodes, Function.update_self]
  have heq : ((σ.nodes i).handleHigherTerm (σ.nodes j).currentTerm).1 =
      { σ.nodes i with
        currentTerm := (σ.nodes j).currentTerm, votedFor := none, state := .follower }.persist := by
    rw [Raft.handleHigherTerm, if_pos hterm]
  refine ⟨σ', hr, ?_, ?_, fun k hk => ?_⟩
  · rw [hself, heq, persist_keeps]
  · rw [hself, heq, persist_keeps]
  · rw [hnodes, Function.update_of_ne hk]
    by_cases hkj : k = j
    · rw [hkj, Function.update_self]
    · exact Function.update_of_ne hkj ..

/-! ## Elections -/

/-- What an election timeout does to a node that is not the leader. -/
theorem Cluster.Sound.timeout (hσ : σ.Sound) (hi : i ∈ Q) (hl : (σ.nodes i).state ≠ .leader) :
    ∃ rf args votes σ', (σ.nodes i).becomeCandidate = some (rf, args, votes) ∧
      σ' = (σ.setNode i rf).call (voteRequests i args votes) ∧ Reaches Q σ σ' := by
  obtain ⟨σ', hexec, _⟩ := hσ.exec (e := .electionTimeout i) trivial
  have hr : Reaches Q σ σ' := .step (.electionTimeout i) hi trivial hexec
  rw [Cluster.exec, if_neg hl] at hexec
  obtain ⟨⟨rf, args, votes⟩, hbecome, h⟩ := Option.bind_eq_some_iff.mp hexec
  cases h
  exact ⟨rf, args, votes, _, hbecome, rfl, hr⟩

theorem becomeCandidate_inv {rf rf' : Raft n C D} {args : RequestVoteArgs n} {votes : Nat}
    (h : rf.becomeCandidate = some (rf', args, votes)) :
    rf'.state = .candidate ∧ rf'.currentTerm = rf.currentTerm + 1 ∧ rf'.logs = rf.logs ∧
      rf'.grantedVotes[votes]? = some 1 ∧
      ∃ last, rf.getLastLog = some last ∧
        args = ⟨rf.currentTerm + 1, rf.me, last.term, last.index⟩ := by
  obtain ⟨args', hargs, h⟩ := Option.bind_eq_some_iff.mp h
  cases h
  obtain ⟨last, hlast, hargs⟩ := Option.bind_eq_some_iff.mp hargs
  cases hargs
  rw [Raft.becomeCandidateTerm, persist_keeps, persist_keeps] at *
  refine ⟨rfl, rfl, rfl, ?_, last, ?_, rfl⟩
  · simp
  · exact hlast

/-- Elections without an answer raise the term of a node as far as one likes. -/
theorem Cluster.Sound.raise (hσ : σ.Sound) (hi : i ∈ Q) (hl : (σ.nodes i).state ≠ .leader)
    (d : Nat) :
    ∃ σ', Reaches Q σ σ' ∧ (σ'.nodes i).state ≠ .leader ∧
      (σ'.nodes i).currentTerm = (σ.nodes i).currentTerm + d ∧
      (σ'.nodes i).logs = (σ.nodes i).logs ∧ ∀ k, k ≠ i → σ'.nodes k = σ.nodes k := by
  induction d with
  | zero => exact ⟨σ, .refl Q σ, hl, rfl, rfl, fun _ _ => rfl⟩
  | succ d ih =>
    obtain ⟨σ₁, hr, hl₁, hterm, hlogs, hothers⟩ := ih
    obtain ⟨rf, args, votes, σ₂, hbecome, rfl, hr₂⟩ := (hσ.reaches hr).timeout hi hl₁
    obtain ⟨hcand, hterm₂, hlogs₂, _, _⟩ := becomeCandidate_inv hbecome
    have hself : ((σ₁.setNode i rf).call (voteRequests i args votes)).nodes i = rf :=
      Function.update_self ..
    refine ⟨_, hr.trans hr₂, ?_, ?_, ?_, fun k hk => ?_⟩
    · simp [hself, hcand]
    · rw [hself, hterm₂, hterm]
      omega
    · rw [hself, hlogs₂, hlogs]
    · rw [← hothers k hk]
      exact Function.update_of_ne hk ..

/-! ## Votes -/

/-- Whether a log is up to date depends on the stored log alone. -/
theorem isLogUpToDate_congr {rf rf' : Raft n C D} (h : rf'.logs = rf.logs) (term index : Nat) :
    rf'.isLogUpToDate term index = rf.isLogUpToDate term index := by
  unfold Raft.isLogUpToDate Raft.getLastLog
  rw [h]

/-- A node of a lower term grants its vote to a candidate whose log is good
enough. -/
theorem requestVote_grants {rf : Raft n C D} {args : RequestVoteArgs n}
    (hterm : rf.currentTerm < args.term)
    (hlog : rf.isLogUpToDate args.lastLogTerm args.lastLogIndex = some true) :
    ∃ rf', rf.requestVote args = some (rf', ⟨rf.currentTerm, true⟩) ∧
      rf'.currentTerm = args.term := by
  refine ⟨{ rf with
    state := .follower, currentTerm := args.term, votedFor := some args.candidateId }.persist,
    ?_, ?_⟩
  · have hsame : ({ rf with state := .follower, currentTerm := args.term, votedFor := none } :
        Raft n C D).isLogUpToDate args.lastLogTerm args.lastLogIndex = some true :=
      (isLogUpToDate_congr rfl _ _).trans hlog
    unfold Raft.requestVote
    rw [if_neg (by omega)]
    simp only [gt_iff_lt, hterm, if_true, hsame, Option.bind_eq_bind, Option.bind_some]
    simp
  · rw [persist_keeps]

/-- A granted vote is counted. -/
theorem requestVoteFromPeer_counts {rf rf' : Raft n C D} {args : RequestVoteArgs n}
    {votes count : Nat} {reply : RequestVoteReply} (hcand : rf.state = .candidate)
    (hterm : rf.currentTerm = args.term) (hvotes : rf.grantedVotes[votes]? = some count)
    (hreply : reply.term ≤ rf.currentTerm) (hgranted : reply.voteGranted = true)
    (h : rf.requestVoteFromPeer args votes reply = some rf') :
    rf'.currentTerm = rf.currentTerm ∧
      if count + 1 = n / 2 + 1 then rf'.state = .leader
      else rf'.state = .candidate ∧ rf'.grantedVotes[votes]? = some (count + 1) := by
  have hcounted : (rf.grantedVotes.modify votes (· + 1))[votes]? = some (count + 1) := by
    rw [List.getElem?_modify_eq, hvotes]
    rfl
  have hhigher : rf.handleHigherTerm reply.term = (rf, false) := if_neg (by omega)
  have hvalid : rf.isStillValidCandidate args.term = true := decide_eq_true ⟨hcand, hterm⟩
  unfold Raft.requestVoteFromPeer at h
  rw [if_neg (not_not.mpr hvalid), hhigher] at h
  simp only [Bool.false_eq_true, if_false, hgranted, if_true, hcounted, Option.some.injEq] at h
  split_ifs at h ⊢ with hmajority
  · obtain ⟨last, _, rfl⟩ := becomeLeader_inv h
    exact ⟨rfl, rfl⟩
  · cases h
    exact ⟨rfl, hcand, hcounted⟩

/-- The election of `i` with request `args`, when `count` votes are counted.
The peers in `js` have not been asked; they will grant their votes. -/
structure Polling (Q : Finset (Fin n)) (i : Fin n) (args : RequestVoteArgs n)
    (votes count : Nat) (js : List (Fin n)) (σ : Cluster n C D) : Prop where
  candidate : (σ.nodes i).state = .candidate
  term : (σ.nodes i).currentTerm = args.term
  counted : (σ.nodes i).grantedVotes[votes]? = some count
  terms : ∀ j ∈ Q, (σ.nodes j).currentTerm ≤ args.term
  behind : ∀ j ∈ js, (σ.nodes j).currentTerm < args.term ∧
    (σ.nodes j).isLogUpToDate args.lastLogTerm args.lastLogIndex = some true
  waiting : ∀ j ∈ js, ∃ r ∈ σ.waiting, σ.rpcs[r]? = some ⟨i, j, .requestVote args, votes⟩

/-- A leader in `Q` whose term nobody in `Q` exceeds. -/
structure Leads (Q : Finset (Fin n)) (i : Fin n) (σ : Cluster n C D) : Prop where
  mem : i ∈ Q
  leader : (σ.nodes i).state = .leader
  terms : ∀ j ∈ Q, (σ.nodes j).currentTerm ≤ (σ.nodes i).currentTerm

/-- The next peer votes. -/
theorem Polling.vote {args : RequestVoteArgs n} {votes count : Nat} {js : List (Fin n)}
    (h : Polling Q i args votes count (j :: js) σ) (hσ : σ.Sound) (hi : i ∈ Q) (hj : j ∈ Q)
    (hne : j ≠ i) (hjs : j ∉ js) (hijs : i ∉ js) :
    ∃ σ', Reaches Q σ σ' ∧
      if count + 1 = n / 2 + 1 then Leads Q i σ' else Polling Q i args votes (count + 1) js σ' := by
  obtain ⟨hterm, hlog⟩ := h.behind j (List.mem_cons_self ..)
  obtain ⟨r, hwait, hrpc⟩ := h.waiting j (List.mem_cons_self ..)
  obtain ⟨fl, hgrant, hfl⟩ := requestVote_grants hterm hlog
  have hreq : handleRequest (σ.nodes j) (.requestVote args) =
      some (fl, .requestVote ⟨(σ.nodes j).currentTerm, true⟩) := by
    simp only [handleRequest, hgrant, Option.bind_eq_bind, Option.bind_some]
  -- The candidate does not panic, because no reachable cluster does.
  obtain ⟨ld, hrep⟩ : ∃ ld, handleReply (σ.nodes i) ⟨i, j, .requestVote args, votes⟩
      (.requestVote ⟨(σ.nodes j).currentTerm, true⟩) = some ld := by
    obtain ⟨σ₁, hσ₁⟩ : ∃ σ₁, σ₁ = ({ σ.setNode j fl with
      replies := σ.replies ++ [(r, .requestVote ⟨(σ.nodes j).currentTerm, true⟩)] } :
      Cluster n C D) := ⟨_, rfl⟩
    have hsound : σ₁.Sound := by
      refine hσ.of_exec (e := .deliver r) (List.getElem?_eq_some_iff.mp hrpc).1 ?_
      simp only [Cluster.exec, hrpc, hreq, Option.bind_eq_bind, Option.bind_some, hσ₁]
    obtain ⟨σ₂, hexec, _⟩ := hsound.exec
      (e := .handleReply r (.requestVote ⟨(σ.nodes j).currentTerm, true⟩))
      ⟨by rw [hσ₁]; exact hwait, by rw [hσ₁]; simp⟩
    have hnode : σ₁.nodes i = σ.nodes i := by
      rw [hσ₁]
      exact Function.update_of_ne hne.symm ..
    have hrpc₁ : σ₁.rpcs[r]? = some ⟨i, j, .requestVote args, votes⟩ := by
      rw [hσ₁]
      exact hrpc
    simp only [Cluster.exec, hrpc₁, hnode] at hexec
    obtain ⟨ld, hld, _⟩ := Option.bind_eq_some_iff.mp hexec
    exact ⟨ld, hld⟩
  obtain ⟨hldterm, hcount⟩ := requestVoteFromPeer_counts h.candidate h.term h.counted
    (show (σ.nodes j).currentTerm ≤ _ by rw [h.term]; omega) rfl hrep
  have hreach := reaches_answer hi hj hne hwait hrpc hreq hrep
  refine ⟨_, hreach, ?_⟩
  have hself : Function.update (Function.update σ.nodes j fl) i ld i = ld :=
    Function.update_self ..
  have hpeer : ∀ k, k ≠ i → Function.update (Function.update σ.nodes j fl) i ld k =
      Function.update σ.nodes j fl k := fun k hk => Function.update_of_ne hk ..
  have hterms : ∀ k ∈ Q, (Function.update (Function.update σ.nodes j fl) i ld k).currentTerm ≤
      args.term := by
    intro k hk
    by_cases hki : k = i
    · rw [hki, hself, hldterm, h.term]
    · rw [hpeer k hki]
      by_cases hkj : k = j
      · rw [hkj, Function.update_self, hfl]
      · rw [Function.update_of_ne hkj]
        exact h.terms k hk
  have hrest : ∀ k ∈ js, Function.update (Function.update σ.nodes j fl) i ld k = σ.nodes k := by
    intro k hk
    rw [hpeer k (fun hki => hijs (hki ▸ hk)),
      Function.update_of_ne (show k ≠ j from fun hkj => hjs (hkj ▸ hk))]
  split_ifs at hcount ⊢ with hmajority
  · refine ⟨hi, ?_, fun k hk => ?_⟩
    · simp only [hself]
      exact hcount
    · simp only [hself, hldterm, h.term]
      exact hterms k hk
  · refine ⟨?_, ?_, ?_, hterms, fun k hk => ?_, fun k hk => ?_⟩
    · simp only [hself]
      exact hcount.1
    · simp only [hself, hldterm, h.term]
    · simp only [hself]
      exact hcount.2
    · simp only [hrest k hk]
      exact h.behind k (List.mem_cons_of_mem _ hk)
    · obtain ⟨r', hr', hrpc'⟩ := h.waiting k (List.mem_cons_of_mem _ hk)
      refine ⟨r', Finset.mem_erase.mpr ⟨?_, hr'⟩, hrpc'⟩
      rintro rfl
      cases hrpc.symm.trans hrpc'
      exact hjs hk

/-- As soon as a majority has voted, the candidate is the leader. -/
theorem Polling.elect {args : RequestVoteArgs n} {votes : Nat} (hi : i ∈ Q) {js : List (Fin n)}
    (hjs : ∀ j ∈ js, j ∈ Q) (hi' : i ∉ js) (hnodup : js.Nodup) :
    ∀ {count : Nat} {σ : Cluster n C D}, Polling Q i args votes count js σ → σ.Sound →
      count ≤ n / 2 → n / 2 < count + js.length → ∃ σ', Reaches Q σ σ' ∧ Leads Q i σ' := by
  induction js with
  | nil =>
    intro count σ _ _ hle hlt
    rw [List.length_nil] at hlt
    omega
  | cons j js ih =>
    intro count σ h hσ hle hlt
    rw [List.length_cons] at hlt
    rw [List.nodup_cons] at hnodup
    rw [List.mem_cons, not_or] at hi'
    obtain ⟨σ₁, hr, hnext⟩ := h.vote hσ hi (hjs j (List.mem_cons_self ..)) (Ne.symm hi'.1)
      hnodup.1 hi'.2
    split_ifs at hnext with hmajority
    · exact ⟨σ₁, hr, hnext⟩
    · obtain ⟨σ₂, hr₂, hleads⟩ := ih (fun k hk => hjs k (List.mem_cons_of_mem _ hk)) hi'.2
        hnodup.2 hnext (hσ.reaches hr) (by omega) (by omega)
      exact ⟨σ₂, hr.trans hr₂, hleads⟩

/-! ## The way to a leader -/

/-- Every member of `Q` would vote for `i`, as far as the logs are concerned. -/
def Best (Q : Finset (Fin n)) (i : Fin n) (σ : Cluster n C D) : Prop :=
  ∀ j ∈ Q, ∀ last, (σ.nodes i).getLastLog = some last →
    (σ.nodes j).isLogUpToDate last.term last.index = some true

/-- Some member has the best log. -/
theorem Cluster.Sound.exists_best (hσ : σ.Sound) (hQ : Q.Nonempty) : ∃ i ∈ Q, Best Q i σ := by
  obtain ⟨a, _, hS⟩ := hσ
  obtain ⟨i, hi, hmax⟩ := Q.exists_max_image
    (fun i => toLex (lastTerm (a.log i), (a.log i).length)) hQ
  refine ⟨i, hi, fun j hj last hlast => ?_⟩
  obtain ⟨d, hd⟩ := (hS.node i).repr.getLastLog
  cases hlast.symm.trans hd
  rw [isLogUpToDate_spec (hS.node j).repr]
  have hle := hmax j hj
  rw [Prod.Lex.le_iff] at hle
  exact congrArg some (decide_eq_true (hle.imp id fun h => ⟨h.1.symm, h.2⟩))

theorem Best.congr (h : Best Q i σ) (hlogs : ∀ k, (σ'.nodes k).logs = (σ.nodes k).logs) :
    Best Q i σ' := by
  intro j hj last hlast
  rw [isLogUpToDate_congr (hlogs j)]
  refine h j hj last ?_
  unfold Raft.getLastLog at hlast ⊢
  rw [← hlogs i]
  exact hlast

/-- Every peer is asked for its vote. -/
theorem mem_voteRequests (hne : j ≠ i) (args : RequestVoteArgs n) (votes : Nat) :
    (⟨i, j, .requestVote args, votes⟩ : Rpc n C D) ∈ voteRequests i args votes := by
  refine List.mem_map.mpr ⟨j, List.mem_filter.mpr ⟨List.mem_finRange j, ?_⟩, rfl⟩
  exact decide_eq_true hne

/-- The node with the best log is elected, once it has the highest term. -/
theorem Cluster.Sound.elect (hσ : σ.Sound) (hi : i ∈ Q) (hQ : IsQuorum Q) (hn : 2 ≤ n)
    (hbest : Best Q i σ) (hl : (σ.nodes i).state ≠ .leader)
    (hterms : ∀ j ∈ Q, (σ.nodes j).currentTerm ≤ (σ.nodes i).currentTerm) :
    ∃ σ', Reaches Q σ σ' ∧ Leads Q i σ' := by
  obtain ⟨rf, args, votes, σ₁, hbecome, rfl, hr⟩ := hσ.timeout hi hl
  obtain ⟨hcand, hterm, hlogs, hvotes, last, hlast, rfl⟩ := becomeCandidate_inv hbecome
  obtain ⟨args, hargs⟩ : ∃ args : RequestVoteArgs n,
    args = ⟨(σ.nodes i).currentTerm + 1, (σ.nodes i).me, last.term, last.index⟩ := ⟨_, rfl⟩
  rw [← hargs] at hr
  have hself : ((σ.setNode i rf).call (voteRequests i args votes)).nodes i = rf :=
    Function.update_self ..
  have hpeer : ∀ k, k ≠ i → ((σ.setNode i rf).call (voteRequests i args votes)).nodes k =
      σ.nodes k := fun k hk => Function.update_of_ne hk ..
  have hargsTerm : args.term = (σ.nodes i).currentTerm + 1 := by rw [hargs]
  have hcard : (Q.erase i).toList.length + 1 = Q.card := by
    rw [Finset.length_toList, Finset.card_erase_add_one hi]
  have hquorum : n < 2 * Q.card := by
    have := hQ
    rw [IsQuorum, Fintype.card_fin] at this
    exact this
  have hpoll : Polling Q i args votes 1 (Q.erase i).toList
      ((σ.setNode i rf).call (voteRequests i args votes)) := by
    refine ⟨?_, ?_, ?_, fun j hj => ?_, fun j hj => ?_, fun j hj => ?_⟩
    · rw [hself]
      exact hcand
    · rw [hself, hterm, hargsTerm]
    · rw [hself]
      exact hvotes
    · by_cases hji : j = i
      · rw [hji, hself, hterm, hargsTerm]
      · rw [hpeer j hji, hargsTerm]
        exact Nat.le_succ_of_le (hterms j hj)
    · obtain ⟨hji, hjQ⟩ := Finset.mem_erase.mp (Finset.mem_toList.mp hj)
      rw [hpeer j hji, hargsTerm, hargs]
      exact ⟨Nat.lt_succ_of_le (hterms j hjQ), hbest j hjQ last hlast⟩
    · obtain ⟨hji, _⟩ := Finset.mem_erase.mp (Finset.mem_toList.mp hj)
      obtain ⟨k, hk⟩ := List.mem_iff_getElem?.mp
        (mem_voteRequests (C := C) (D := D) hji args votes)
      have hlt := (List.getElem?_eq_some_iff.mp hk).1
      refine ⟨σ.rpcs.length + k, ?_, ?_⟩
      · rw [Cluster.call, Finset.mem_union, Finset.mem_Ico]
        exact Or.inr ⟨Nat.le_add_right _ _, Nat.add_lt_add_left hlt _⟩
      · rw [Cluster.call]
        show (σ.rpcs ++ _)[σ.rpcs.length + k]? = _
        rw [List.getElem?_append_right (Nat.le_add_right _ _), Nat.add_sub_cancel_left]
        exact hk
  obtain ⟨σ₂, hr₂, hleads⟩ := hpoll.elect hi
    (fun j hj => (Finset.mem_erase.mp (Finset.mem_toList.mp hj)).2)
    (fun h => (Finset.mem_erase.mp (Finset.mem_toList.mp h)).1 rfl) (Finset.nodup_toList _)
    (hσ.reaches hr) (by omega) (by omega)
  exact ⟨σ₂, hr.trans hr₂, hleads⟩

/-- A majority can elect a leader. -/
theorem Cluster.Sound.exists_leads (hσ : σ.Sound) (hQ : IsQuorum Q) (hn : 2 ≤ n) :
    ∃ σ' i, Reaches Q σ σ' ∧ Leads Q i σ' := by
  have hne : Q.Nonempty := by
    obtain ⟨v, hv, _⟩ := hQ.exists_common hQ
    exact ⟨v, hv⟩
  obtain ⟨i, hi, hbest⟩ := hσ.exists_best hne
  obtain ⟨m, hm, hmax⟩ := Q.exists_max_image (fun j => (σ.nodes j).currentTerm) hne
  by_cases htop : (σ.nodes i).state = .leader ∧ (σ.nodes m).currentTerm ≤ (σ.nodes i).currentTerm
  · exact ⟨σ, i, .refl Q σ, hi, htop.1, fun j hj => (hmax j hj).trans htop.2⟩
  -- An old leader steps down first.
  obtain ⟨σ₁, hr₁, hl₁, hlogs₁, hothers₁⟩ : ∃ σ₁, Reaches Q σ σ₁ ∧
      (σ₁.nodes i).state ≠ .leader ∧ (σ₁.nodes i).logs = (σ.nodes i).logs ∧
      ∀ k, k ≠ i → σ₁.nodes k = σ.nodes k := by
    by_cases hl : (σ.nodes i).state = .leader
    · obtain ⟨σ₁, hr, hstate, hlogs, hothers⟩ := hσ.dethrone hi hm hl
        (Nat.lt_of_not_le fun hle => htop ⟨hl, hle⟩)
      exact ⟨σ₁, hr, by simp [hstate], hlogs, hothers⟩
    · exact ⟨σ, .refl Q σ, hl, rfl, fun _ _ => rfl⟩
  obtain ⟨σ₂, hr₂, hl₂, hterm₂, hlogs₂, hothers₂⟩ := (hσ.reaches hr₁).raise hi hl₁
    (σ.nodes m).currentTerm
  have hsame : ∀ k, (σ₂.nodes k).logs = (σ.nodes k).logs := by
    intro k
    by_cases hk : k = i
    · rw [hk, hlogs₂, hlogs₁]
    · rw [hothers₂ k hk, hothers₁ k hk]
  have hterms : ∀ j ∈ Q, (σ₂.nodes j).currentTerm ≤ (σ₂.nodes i).currentTerm := by
    intro j hj
    by_cases hji : j = i
    · rw [hji]
    · rw [hothers₂ j hji, hothers₁ j hji, hterm₂]
      have := hmax j hj
      omega
  obtain ⟨σ₃, hr₃, hleads⟩ := (hσ.reaches (hr₁.trans hr₂)).elect hi hQ hn (hbest.congr hsame) hl₂
    hterms
  exact ⟨σ₃, i, (hr₁.trans hr₂).trans hr₃, hleads⟩

end KvRaft
