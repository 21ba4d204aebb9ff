import KvRaft.Cluster.Handlers

/-!
# The cluster refines the protocol

`exec_refines` is the main result of this part.  In a cluster that shows a
reachable protocol state, every event that can happen succeeds, and the
cluster afterwards shows a protocol state that some steps lead to.

* The only panics of the model are slice accesses out of range, so "every
  event succeeds" says that none of them happens.
* A slot of a leader's log comes from a call of `Start` on a leader
  (`Cluster.Origin`).
* The term and the three indices of an instance do not go down, unless the
  event restarts it (`Cluster.rebooted`).
-/

namespace KvRaft

open Consensus

variable {n : Nat} {C D : Type} {Φ : Log (Option C) → Option D → Prop}
variable {σ σ' : Cluster n C D} {a a' : Abs n C} {i : Fin n} {rf' : Raft n C D}

/-! ## Calls and votes -/

theorem WaitOk.mono {rf : Raft n C D} {rpc : Rpc n C D}
    (hterm : rf.currentTerm ≤ rf'.currentTerm)
    (hvotes : rf'.currentTerm = rf.currentTerm →
      rf'.grantedVotes.length = rf.grantedVotes.length)
    (h : WaitOk rf rpc) : WaitOk rf' rpc := by
  intro args hargs
  obtain ⟨hle, heq⟩ := h args hargs
  refine ⟨hle.trans hterm, fun ht => ?_⟩
  rw [hvotes (by omega)]
  exact heq (by omega)

theorem VotesOk.mono (h : VotesOk σ a i) (hx : State.Extends a a')
    (hterm : (σ'.nodes i).currentTerm = (σ.nodes i).currentTerm)
    (hvotes : (σ'.nodes i).grantedVotes = (σ.nodes i).grantedVotes)
    (hasks : ∀ t r v, σ'.Asks i t r v → σ.Asks i t r v) : VotesOk σ' a' i := by
  obtain ⟨S, hlast, hgrants, hnot, hinj⟩ := h
  refine ⟨S, hvotes ▸ hlast, ?_⟩
  rw [hterm]
  exact ⟨fun v hv => hx.grants (hgrants v hv), fun r v hr => hnot r v (hasks _ r v hr),
    fun r r' v hr hr' => hinj r r' v (hasks _ r v hr) (hasks _ r' v hr')⟩

/-- A vote request that waits after some new calls is an old one or one of
the new calls. -/
theorem asks_call {new : List (Rpc n C D)} {t r : Nat} {v : Fin n}
    (h : (σ.call new).Asks i t r v) : σ.Asks i t r v ∨ ∃ k rpc args, r = σ.rpcs.length + k ∧
      new[k]? = some rpc ∧ rpc.src = i ∧ rpc.dst = v ∧ rpc.args = .requestVote args ∧
      args.term = t := by
  obtain ⟨hr, rpc, args, hrpc, hsrc, hdst, hargs, ht⟩ := h
  rw [Cluster.call, List.getElem?_append] at hrpc
  split_ifs at hrpc with hlt
  · rcases Finset.mem_union.mp hr with hr | hr
    · exact Or.inl ⟨hr, rpc, args, hrpc, hsrc, hdst, hargs, ht⟩
    · have := (Finset.mem_Ico.mp hr).1
      omega
  · exact Or.inr ⟨r - σ.rpcs.length, rpc, args, by omega, hrpc, hsrc, hdst, hargs, ht⟩

/-! ## Changes of the cluster -/

/-- One instance changes. -/
theorem Sim.update (hI : a.Inv) (hS : Sim Φ σ a) (hx : State.Extends a a')
    (hsame : ∀ j, j ≠ i → SameAt a a' j) (hnode : NodeSim Φ a' i rf')
    (hwait : ∀ rpc, WaitOk (σ.nodes i) rpc → WaitOk rf' rpc)
    (hvotes : rf'.state = .candidate → VotesOk (σ.setNode i rf') a' i) :
    Sim Φ (σ.setNode i rf') a' := by
  have hself : (σ.setNode i rf').nodes i = rf' := Function.update_self ..
  have hother : ∀ j, j ≠ i → (σ.setNode i rf').nodes j = σ.nodes j := fun j hj =>
    Function.update_of_ne hj ..
  refine
    { node := fun j => ?_
      rpc := fun hr => (hS.rpc hr).mono hI hx
      reply := fun hr => ?_
      waiting := fun hr => ?_
      votes := fun j hj => ?_ }
  · by_cases hji : j = i
    · subst hji
      rw [hself]
      exact hnode
    · rw [hother j hji]
      exact (hS.node j).mono hI hx (hsame j hji)
  · obtain ⟨rpc, hrpc, hok⟩ := hS.reply hr
    exact ⟨rpc, hrpc, hok.mono hx (hS.rpc hrpc)⟩
  · obtain ⟨rpc, hrpc, hok⟩ := hS.waiting hr
    refine ⟨rpc, hrpc, ?_⟩
    by_cases hsrc : rpc.src = i
    · rw [hsrc] at hok ⊢
      rw [hself]
      exact hwait rpc hok
    · rw [hother _ hsrc]
      exact hok
  · by_cases hji : j = i
    · subst hji
      rw [hself] at hj
      exact hvotes hj
    · have hnodes := hother j hji
      rw [hnodes] at hj
      exact (hS.votes j hj).mono hx (by rw [hnodes]) (by rw [hnodes]) fun _ _ _ h => h

/-- A handler that starts, counts and wins no election. -/
theorem Sim.setNode (hI : a.Inv) (hS : Sim Φ σ a) (hx : State.Extends a a')
    (hsame : ∀ j, j ≠ i → SameAt a a' j) (hnode : NodeSim Φ a' i rf')
    (hquiet : Quiet (σ.nodes i) rf') : Sim Φ (σ.setNode i rf') a' := by
  refine hS.update hI hx hsame hnode ?_ fun hc => ?_
  · exact fun rpc => WaitOk.mono hquiet.term fun _ => by rw [hquiet.votes]
  · obtain ⟨hold, hterm⟩ := hquiet.cand hc
    have hself : (σ.setNode i rf').nodes i = rf' := Function.update_self ..
    exact (hS.votes i hold).mono hx (by rw [hself, hterm]) (by rw [hself, hquiet.votes])
      fun _ _ _ h => h

theorem Sim.handled (hI : a.Inv) (hS : Sim Φ σ a)
    (h : Handled Φ a a' i (σ.nodes i) rf') : Sim Φ (σ.setNode i rf') a' :=
  hS.setNode hI (h.acts.inv hI).2 h.acts.others h.node h.quiet

theorem Sim.addReply (hS : Sim Φ σ a) {r : Nat} {rpc : Rpc n C D}
    (hrpc : σ.rpcs[r]? = some rpc) {rep : RpcReply} (hok : ReplyOk a rpc rep) :
    Sim Φ { σ with replies := σ.replies ++ [(r, rep)] } a := by
  refine ⟨hS.node, hS.rpc, fun hr => ?_, hS.waiting, hS.votes⟩
  rcases List.mem_append.mp hr with hr | hr
  · exact hS.reply hr
  · cases List.mem_singleton.mp hr
    exact ⟨rpc, hrpc, hok⟩

/-- A call takes its reply. -/
theorem Sim.finish (hS : Sim Φ σ a) (r : Nat) :
    Sim Φ { σ with waiting := σ.waiting.erase r } a := by
  refine ⟨hS.node, hS.rpc, hS.reply, fun hr => hS.waiting (Finset.mem_of_mem_erase hr), ?_⟩
  intro j hj
  exact (hS.votes j hj).mono (.refl a) rfl rfl fun _ _ _ h =>
    ⟨Finset.mem_of_mem_erase h.1, h.2⟩

theorem Sim.call (hS : Sim Φ σ a) {new : List (Rpc n C D)}
    (hnew : ∀ rpc ∈ new, RpcOk Φ a rpc ∧ WaitOk (σ.nodes rpc.src) rpc)
    (hvotes : ∀ j, (σ.nodes j).state = .candidate → VotesOk (σ.call new) a j) :
    Sim Φ (σ.call new) a := by
  have hold : ∀ {r : Nat} {rpc}, σ.rpcs[r]? = some rpc → (σ.call new).rpcs[r]? = some rpc := by
    intro r rpc hr
    rw [Cluster.call, List.getElem?_append_left (List.getElem?_eq_some_iff.mp hr).1]
    exact hr
  refine ⟨hS.node, fun {r rpc} hr => ?_, fun hr => ?_, fun {r} hr => ?_, hvotes⟩
  · rw [Cluster.call, List.getElem?_append] at hr
    split_ifs at hr
    · exact hS.rpc hr
    · exact (hnew rpc (List.mem_of_getElem? hr)).1
  · obtain ⟨rpc, hrpc, hok⟩ := hS.reply hr
    exact ⟨rpc, hold hrpc, hok⟩
  · rcases Finset.mem_union.mp hr with hr | hr
    · obtain ⟨rpc, hrpc, hok⟩ := hS.waiting hr
      exact ⟨rpc, hold hrpc, hok⟩
    · obtain ⟨hge, hlt⟩ := Finset.mem_Ico.mp hr
      have hk : r - σ.rpcs.length < new.length := by omega
      have hget := List.getElem?_eq_getElem hk
      refine ⟨new[r - σ.rpcs.length], ?_, (hnew _ (List.getElem_mem hk)).2⟩
      rw [Cluster.call, List.getElem?_append_right hge, hget]

theorem Sim.reboot (hI : a.Inv) (hS : Sim Φ σ a) (hacts : MemberMoves i a a')
    {ps : Persister n C D} (hnode : NodeSim Φ a' i (Raft.make i ps)) :
    Sim Φ (σ.reboot i ps) a' := by
  obtain ⟨_, hx⟩ := hacts.inv hI
  have hself : (σ.reboot i ps).nodes i = Raft.make i ps := Function.update_self ..
  have hother : ∀ j, j ≠ i → (σ.reboot i ps).nodes j = σ.nodes j := fun j hj =>
    Function.update_of_ne hj ..
  refine
    { node := fun j => ?_
      rpc := fun hr => (hS.rpc hr).mono hI hx
      reply := fun hr => ?_
      waiting := fun {r} hr => ?_
      votes := fun j hj => ?_ }
  · by_cases hji : j = i
    · subst hji
      rw [hself]
      exact hnode
    · rw [hother j hji]
      exact (hS.node j).mono hI hx (hacts.others j hji)
  · obtain ⟨rpc, hrpc, hok⟩ := hS.reply hr
    exact ⟨rpc, hrpc, hok.mono hx (hS.rpc hrpc)⟩
  · -- The calls of the restarted instance are gone.
    obtain ⟨hr, hsrc⟩ := Finset.mem_filter.mp hr
    obtain ⟨rpc, hrpc, hok⟩ := hS.waiting hr
    rw [hrpc, Option.map_some] at hsrc
    refine ⟨rpc, hrpc, ?_⟩
    rw [hother _ fun h => hsrc (congrArg some h)]
    exact hok
  · by_cases hji : j = i
    · subst hji
      rw [hself, Raft.make_eq] at hj
      simp [Raft.blank] at hj
    · have hnodes := hother j hji
      rw [hnodes] at hj
      exact (hS.votes j hj).mono hx (by rw [hnodes]) (by rw [hnodes]) fun _ _ _ h =>
        ⟨(Finset.mem_filter.mp h.1).1, h.2⟩

/-! ## Elections -/

theorem voteRequests_getElem? {args : RequestVoteArgs n} {votes k : Nat} {rpc : Rpc n C D}
    (h : (Cluster.voteRequests i args votes)[k]? = some rpc) :
    rpc = ⟨i, rpc.dst, .requestVote args, votes⟩ ∧ rpc.dst ≠ i ∧
      ((List.finRange n).filter (· ≠ i))[k]? = some rpc.dst := by
  rw [Cluster.voteRequests, List.getElem?_map, Option.map_eq_some_iff] at h
  obtain ⟨peer, hpeer, rfl⟩ := h
  have hmem := List.mem_filter.mp (List.mem_of_getElem? hpeer)
  exact ⟨rfl, by simpa using hmem.2, hpeer⟩

/-- A new candidate counts its own vote, and asks every peer once. -/
theorem votesOk_stand (hS : Sim Φ σ a)
    (hterm : rf'.currentTerm = (σ.nodes i).currentTerm + 1)
    (hvotes : rf'.grantedVotes = (σ.nodes i).grantedVotes ++ [1]) (args : RequestVoteArgs n)
    (votes : Nat) :
    VotesOk ((σ.setNode i rf').call (Cluster.voteRequests i args votes)) (a.stand i) i := by
  have hself : ((σ.setNode i rf').call (Cluster.voteRequests i args votes)).nodes i = rf' :=
    Function.update_self ..
  -- No vote request of the new term waits yet.
  have hnew : ∀ {r v}, ((σ.setNode i rf').call (Cluster.voteRequests i args votes)).Asks i
      ((σ.nodes i).currentTerm + 1) r v → ∃ k, r = σ.rpcs.length + k ∧ v ≠ i ∧
        ((List.finRange n).filter (· ≠ i))[k]? = some v := by
    intro r v h
    rcases asks_call h with h | h
    · obtain ⟨hr, rpc, args', hrpc, hsrc, _, hargs, ht⟩ := h
      obtain ⟨rpc', hrpc', hok⟩ := hS.waiting hr
      cases hrpc.symm.trans hrpc'
      have := (hok args' hargs).1
      rw [hsrc] at this
      omega
    · obtain ⟨k, rpc, _, hr, hk, _, hdst, _, _⟩ := h
      obtain ⟨_, hne, hget⟩ := voteRequests_getElem? hk
      exact ⟨k, hr, hdst ▸ hne, hdst ▸ hget⟩
  refine ⟨{i}, ?_, ?_, ?_, ?_⟩
  · rw [hself, hvotes, List.getLast?_concat, Finset.card_singleton]
  · intro v hv
    rw [Finset.mem_singleton.mp hv, hself, hterm, ← (hS.node i).term]
    exact Or.inr ⟨rfl, rfl, rfl⟩
  · intro r v hr
    rw [hself, hterm] at hr
    obtain ⟨_, _, hv, _⟩ := hnew hr
    simpa using hv
  · intro r r' v hr hr'
    rw [hself, hterm] at hr hr'
    obtain ⟨k, rfl, _, hk⟩ := hnew hr
    obtain ⟨k', rfl, _, hk'⟩ := hnew hr'
    have hnodup : ((List.finRange n).filter (· ≠ i)).Nodup := (List.nodup_finRange n).filter _
    have hlt := (List.getElem?_eq_some_iff.mp hk).1
    rw [(List.getElem?_inj hlt hnodup).mp (hk.trans hk'.symm)]

/-- The vote of call `r` is counted in the last cell, on top of the votes of `S`. -/
structure Counted (σ : Cluster n C D) (a : Abs n C) (r : Nat) (rpc : Rpc n C D) (init : List Nat)
    (S : Finset (Fin n)) : Prop where
  cells : (σ.nodes rpc.src).grantedVotes = init ++ [S.card]
  cell : rpc.votes = init.length
  card : (insert rpc.dst S).card = S.card + 1
  grants : ∀ v ∈ insert rpc.dst S, a.grants (σ.nodes rpc.src).currentTerm v rpc.src
  /-- The voters of the next count are distinct, and can not be counted again. -/
  votes : VotesOk { σ.setNode rpc.src
      { σ.nodes rpc.src with grantedVotes := init ++ [S.card + 1] } with
    waiting := σ.waiting.erase r } a rpc.src

/-- A vote that is granted in the latest election counts. -/
theorem Sim.counted (hS : Sim Φ σ a) {r : Nat} {rpc : Rpc n C D} (hr : r ∈ σ.waiting)
    (hrpc : σ.rpcs[r]? = some rpc) {args : RequestVoteArgs n} (hargs : rpc.args = .requestVote args)
    (hcand : (σ.nodes rpc.src).state = .candidate)
    (hterm : (σ.nodes rpc.src).currentTerm = args.term)
    (hgrant : a.grants args.term rpc.dst rpc.src) : ∃ init S, Counted σ a r rpc init S := by
  -- The call belongs to the latest election, so its cell is the last one.
  obtain ⟨rpc', hrpc', hwait⟩ := hS.waiting hr
  cases hrpc.symm.trans hrpc'
  have hcell := (hwait args hargs).2 hterm.symm
  obtain ⟨S, hlast, hgrants, hnot, hinj⟩ := hS.votes rpc.src hcand
  have hasks : σ.Asks rpc.src (σ.nodes rpc.src).currentTerm r rpc.dst :=
    ⟨hr, rpc, args, hrpc, rfl, rfl, hargs, hterm.symm⟩
  obtain ⟨init, hinit⟩ := List.getLast?_eq_some_iff.mp hlast
  have hcard : (insert rpc.dst S).card = S.card + 1 :=
    Finset.card_insert_of_notMem (hnot r rpc.dst hasks)
  have hgrants' : ∀ v ∈ insert rpc.dst S, a.grants (σ.nodes rpc.src).currentTerm v rpc.src := by
    intro v hv
    rcases Finset.mem_insert.mp hv with rfl | hv
    · rw [hterm]
      exact hgrant
    · exact hgrants v hv
  refine ⟨init, S, hinit, ?_, hcard, hgrants', ?_⟩
  · rw [hinit, List.length_append, List.length_singleton] at hcell
    omega
  have hself : (σ.setNode rpc.src
      { σ.nodes rpc.src with grantedVotes := init ++ [S.card + 1] }).nodes rpc.src =
      { σ.nodes rpc.src with grantedVotes := init ++ [S.card + 1] } := Function.update_self ..
  unfold VotesOk
  rw [hself]
  refine ⟨insert rpc.dst S, ?_, hgrants', ?_, ?_⟩
  · rw [hcard, List.getLast?_concat]
  · rintro r' v ⟨hr', hrest⟩
    obtain ⟨hne, hr'⟩ := Finset.mem_erase.mp hr'
    rw [Finset.mem_insert, not_or]
    refine ⟨fun hv => ?_, hnot r' v ⟨hr', hrest⟩⟩
    exact hne (hinj r' r rpc.dst (hv ▸ ⟨hr', hrest⟩) hasks)
  · intro r₁ r₂ v h₁ h₂
    exact hinj r₁ r₂ v ⟨Finset.mem_of_mem_erase h₁.1, h₁.2⟩
      ⟨Finset.mem_of_mem_erase h₂.1, h₂.2⟩

/-- A candidate's counter goes up by one when a new voter answers, and the
candidate is elected when it counts a majority. -/
theorem requestVoteFromPeer_refines (hI : a.Inv) (hS : Sim Φ σ a) {r : Nat} {rpc : Rpc n C D}
    (hr : r ∈ σ.waiting) (hrpc : σ.rpcs[r]? = some rpc) {args : RequestVoteArgs n}
    (hargs : rpc.args = .requestVote args) {reply : RequestVoteReply}
    (hreply : ReplyOk a rpc (.requestVote reply)) :
    ∃ rf' a', (σ.nodes rpc.src).requestVoteFromPeer args rpc.votes reply = some rf' ∧
      Relation.ReflTransGen State.Move a a' ∧ Grows (σ.nodes rpc.src) rf' ∧
      Sim Φ { σ.setNode rpc.src rf' with waiting := σ.waiting.erase r } a' := by
  have hS₁ := hS.finish r
  have h := hS.node rpc.src
  generalize hrf : σ.nodes rpc.src = rf at h
  -- Whatever a quiet handler does, the call is over afterwards.
  have hdone : ∀ {rf' a'}, Handled Φ a a' rpc.src rf rf' →
      Relation.ReflTransGen State.Move a a' ∧ Grows rf rf' ∧
        Sim Φ { σ.setNode rpc.src rf' with waiting := σ.waiting.erase r } a' := by
    intro rf' a' hh
    refine ⟨hh.acts.moves, hh.quiet.toGrows, ?_⟩
    rw [← hrf] at hh
    exact hS₁.handled hI hh
  unfold Raft.requestVoteFromPeer
  by_cases hvalid : rf.isStillValidCandidate args.term = true
  swap
  · rw [if_pos hvalid]
    exact ⟨rf, a, rfl, hdone (.refl h)⟩
  rw [if_neg (not_not.mpr hvalid)]
  obtain ⟨hcand, hterm⟩ : rf.state = .candidate ∧ rf.currentTerm = args.term := by
    simpa [Raft.isStillValidCandidate] using hvalid
  rcases handleHigherTerm_cases hI h reply.term with ⟨_, heq⟩ | ⟨rf', a', heq, hh⟩
  swap
  · rw [heq]
    exact ⟨rf', a', rfl, hdone hh⟩
  rw [heq]
  simp only [Bool.false_eq_true, if_false]
  by_cases hgranted : reply.voteGranted = true
  swap
  · rw [if_neg hgranted]
    exact ⟨rf, a, rfl, hdone (.refl h)⟩
  rw [if_pos hgranted]
  have hgrant : a.grants args.term rpc.dst rpc.src :=
    (replyOk_requestVote hargs).mp hreply hgranted
  obtain ⟨init, S, hcount⟩ := hS.counted hr hrpc hargs (by rw [hrf]; exact hcand)
    (by rw [hrf]; exact hterm) hgrant
  obtain ⟨hinit, hvotes, hcard, hgrants, hballot⟩ := hcount
  rw [hrf] at hinit hgrants hballot
  have hmod : rf.grantedVotes.modify rpc.votes (· + 1) = init ++ [S.card + 1] := by
    rw [hinit, hvotes, List.modify_eq_take_cons_drop (by simp)]
    simp
  have hlen : (init ++ [S.card + 1]).length = rf.grantedVotes.length := by
    rw [hinit, List.length_append, List.length_append, List.length_singleton,
      List.length_singleton]
  have hlast : (init ++ [S.card + 1])[rpc.votes]? = some (S.card + 1) := by
    rw [hvotes, List.getElem?_append_right (Nat.le_refl _), Nat.sub_self]
    rfl
  simp only [hmod, hlast]
  have hcore : NodeCore Φ a rpc.src { rf with grantedVotes := init ++ [S.card + 1] } :=
    { h.toNodeCore with
      repr := ⟨h.repr.le, h.repr.term, h.repr.logs⟩
      peers := h.peers }
  by_cases hmaj : some (S.card + 1) = some (n / 2 + 1)
  · have hmaj' := Option.some.inj hmaj
    have hrole : a.role rpc.src = .candidate := by rw [h.role, hcand, NodeState.role]
    have hQ : IsQuorum (insert rpc.dst S) := by
      rw [IsQuorum, hcard, Fintype.card_fin]
      omega
    have hg : ∀ v ∈ insert rpc.dst S, a.grants (a.term rpc.src) v rpc.src := by
      rw [h.term]
      exact hgrants
    have hacts := MemberMoves.elect hrole hQ hg
    have helect := h.toNodeCore.elect hI (hI.leader_none_of_quorum hrole hQ hg)
      (init ++ [S.card + 1])
    rw [if_pos hmaj, becomeLeader_spec hcore.repr]
    simp only [h.me] at helect ⊢
    refine ⟨_, _, rfl, hacts.moves, ⟨Nat.le_refl _, Nat.le_refl _, Nat.le_refl _,
      Nat.le_refl _⟩, ?_⟩
    refine hS₁.update hI (hacts.inv hI).2 hacts.others ⟨helect, h.durable⟩ ?_ ?_
    · rw [show (σ.nodes rpc.src) = rf from hrf]
      exact fun rpc => WaitOk.mono (Nat.le_refl _) fun _ => hlen
    · exact fun hc => by simp at hc
  · rw [if_neg hmaj]
    refine ⟨_, a, rfl, .refl, ⟨Nat.le_refl _, Nat.le_refl _, Nat.le_refl _,
      Nat.le_refl _⟩, ?_⟩
    refine hS₁.update hI (.refl a) (fun _ _ => ⟨rfl, rfl, rfl, rfl⟩) ⟨hcore, h.durable⟩ ?_
      fun _ => hballot
    rw [show (σ.nodes rpc.src) = rf from hrf]
    exact fun rpc => WaitOk.mono (Nat.le_refl _) fun _ => hlen

/-! ## Requests and replies -/

theorem handleRequest_refines (hI : a.Inv) (hS : Sim Φ σ a) {rpc : Rpc n C D}
    (hrpc : RpcOk Φ a rpc) : ∃ rf' reply a',
      Cluster.handleRequest (σ.nodes rpc.dst) rpc.args = some (rf', reply) ∧
      Handled Φ a a' rpc.dst (σ.nodes rpc.dst) rf' ∧ ReplyOk a' rpc reply := by
  have h := hS.node rpc.dst
  cases hargs : rpc.args with
  | requestVote args =>
    obtain ⟨rf', reply, a', heq, hh, hok⟩ := requestVote_refines hI h hargs rfl hrpc
    exact ⟨rf', .requestVote reply, a', by rw [Cluster.handleRequest, heq]; rfl, hh, hok⟩
  | appendEntries args =>
    obtain ⟨rf', reply, a', heq, hh, hok⟩ := appendEntries_refines hI h hargs rfl hrpc
    exact ⟨rf', .appendEntries reply, a', by rw [Cluster.handleRequest, heq]; rfl, hh, hok⟩
  | installSnapshot args =>
    obtain ⟨rf', reply, a', heq, hh, hok⟩ := installSnapshot_refines hI h hargs rfl hrpc
    exact ⟨rf', .installSnapshot reply, a', by rw [Cluster.handleRequest, heq]; rfl, hh, hok⟩

theorem handleReply_refines (hI : a.Inv) (hS : Sim Φ σ a) {r : Nat} {rpc : Rpc n C D}
    (hr : r ∈ σ.waiting) (hrpc : σ.rpcs[r]? = some rpc) {reply : RpcReply}
    (hreply : ReplyOk a rpc reply) :
    ∃ rf' a', Cluster.handleReply (σ.nodes rpc.src) rpc reply = some rf' ∧
      Relation.ReflTransGen State.Move a a' ∧ Grows (σ.nodes rpc.src) rf' ∧
      Sim Φ { σ.setNode rpc.src rf' with waiting := σ.waiting.erase r } a' := by
  have h := hS.node rpc.src
  have hdone : ∀ {rf' a'}, Handled Φ a a' rpc.src (σ.nodes rpc.src) rf' →
      Relation.ReflTransGen State.Move a a' ∧ Grows (σ.nodes rpc.src) rf' ∧
        Sim Φ { σ.setNode rpc.src rf' with waiting := σ.waiting.erase r } a' :=
    fun hh => ⟨hh.acts.moves, hh.quiet.toGrows, (hS.finish r).handled hI hh⟩
  cases reply with
  | requestVote reply =>
    rw [Cluster.handleReply]
    cases hargs : rpc.args with
    | requestVote args => exact requestVoteFromPeer_refines hI hS hr hrpc hargs hreply
    | appendEntries args => exact ⟨_, a, rfl, hdone (.refl h)⟩
    | installSnapshot args => exact ⟨_, a, rfl, hdone (.refl h)⟩
  | appendEntries reply =>
    rw [Cluster.handleReply]
    cases hargs : rpc.args with
    | requestVote args => exact ⟨_, a, rfl, hdone (.refl h)⟩
    | appendEntries args =>
      obtain ⟨rf', a', heq, hh⟩ :=
        handleAppendEntriesReply_refines hI h hargs (hS.rpc hrpc) hreply
      exact ⟨rf', a', heq, hdone hh⟩
    | installSnapshot args => exact ⟨_, a, rfl, hdone (.refl h)⟩
  | installSnapshot reply =>
    rw [Cluster.handleReply]
    cases hargs : rpc.args with
    | requestVote args => exact ⟨_, a, rfl, hdone (.refl h)⟩
    | appendEntries args => exact ⟨_, a, rfl, hdone (.refl h)⟩
    | installSnapshot args =>
      obtain ⟨a', hh⟩ := handleInstallSnapshotReply_refines hI h hargs (hS.rpc hrpc) hreply
      exact ⟨_, a', rfl, hdone hh⟩

/-- What a leader sends is a part of its log, or its snapshot. -/
theorem replicateToPeer_refines (hI : a.Inv) (hS : Sim Φ σ a) (i peer : Fin n) :
    (σ.nodes i).replicateToPeer peer = some none ∨
      ∃ args, (σ.nodes i).replicateToPeer peer = some (some args) ∧
        RpcOk Φ a ⟨i, peer, args, 0⟩ ∧ ∀ rv, args ≠ .requestVote rv := by
  have h := hS.node i
  unfold Raft.replicateToPeer
  by_cases hl : (σ.nodes i).state = .leader
  swap
  · rw [if_pos hl]
    exact Or.inl rfl
  rw [if_neg (not_not.mpr hl)]
  obtain ⟨hlog, hlead, _⟩ := h.toNodeCore.leader_log hI hl
  split_ifs with hnext
  · refine Or.inr ⟨_, rfl, (rpcOk_installSnapshot rfl).mpr ?_, fun _ hc => by simp at hc⟩
    rw [Raft.genInstallSnapshotArgs]
    refine ⟨hlead, ?_, ?_, ?_, ?_⟩
    · rw [← hlog]
      exact h.repr.le
    · rw [← hlog]
      exact h.repr.term
    · rw [← hlog]
      exact h.chosen.of_isPrefix (List.take_prefix_take_left h.snapLe)
    · rw [← hlog, h.readSnapshot]
      exact h.snapData
  · have hn := (h.peers hl peer).1
    have hk : (σ.nodes i).nextIndex peer - 1 ≤ (a.log i).length := by omega
    rw [genAppendEntriesArgs_spec h.repr (by omega) hk]
    refine Or.inr ⟨_, rfl, (rpcOk_appendEntries rfl).mpr ?_, fun _ hc => by simp at hc⟩
    have hc := h.commitLe
    have hch := h.chosen
    rw [hlog] at hk hc hch ⊢
    simp only [length_numbered, List.length_drop]
    refine ⟨hlead, by omega, ?_, trivial, by omega, hch⟩
    rw [List.take_of_length_le (by rw [List.length_drop])]

/-! ## Events -/

/-- Where a new slot of a leader's log comes from. -/
def Cluster.Origin (σ : Cluster n C D) (e : Event n C D) (k : Nat) (s : Slot (Option C)) :
    Prop :=
  ∃ i c, e = .start i c ∧ (σ.nodes i).state = .leader ∧ k + 1 = (σ.nodes i).getLen ∧
    s = ⟨(σ.nodes i).currentTerm, c⟩

/-- The service above hands over a snapshot of what is chosen. -/
def SnapOk (Φ : Log (Option C) → Option D → Prop) (σ : Cluster n C D) (a : Abs n C) :
    Event n C D → Prop
  | .snapshot i index data => (σ.nodes i).lastIncludedIndex < index →
      index ≤ (σ.nodes i).commitIndex → Φ ((a.log i).take index) data
  | _ => True

/-- The event took the cluster from `σ` to `σ'` and the protocol from `a` to
`a'`. -/
structure Refined (Φ : Log (Option C) → Option D → Prop) (σ : Cluster n C D) (a : Abs n C)
    (e : Event n C D) (σ' : Cluster n C D) (a' : Abs n C) : Prop where
  sim : Sim Φ σ' a'
  steps : Relation.ReflTransGen State.Step a a'
  slots : ∀ {k s}, a'.HasSlot k s → a.HasSlot k s ∨ σ.Origin e k s
  grows : ∀ j, σ.rebooted e ≠ some j → Grows (σ.nodes j) (σ'.nodes j)

/-- An event whose steps are moves. -/
theorem Refined.of_moves (hI : a.Inv) {e : Event n C D} (hS : Sim Φ σ' a')
    (hm : Relation.ReflTransGen State.Move a a')
    (hg : ∀ j, σ.rebooted e ≠ some j → Grows (σ.nodes j) (σ'.nodes j)) : Refined Φ σ a e σ' a' :=
  ⟨hS, hm.lift id fun _ _ h => .move h, fun hs => Or.inl (State.hasSlot_of_moves hI hm hs), hg⟩

theorem grows_update (hg : Grows (σ.nodes i) rf') (j : Fin n) :
    Grows (σ.nodes j) (Function.update σ.nodes i rf' j) := by
  by_cases hji : j = i
  · subst hji
    rw [Function.update_self]
    exact hg
  · rw [Function.update_of_ne hji]
    exact (Quiet.refl _).toGrows

theorem Refined.of_handled (hI : a.Inv) (hS : Sim Φ σ a) {e : Event n C D}
    (h : Handled Φ a a' i (σ.nodes i) rf') : Refined Φ σ a e (σ.setNode i rf') a' :=
  .of_moves hI (hS.handled hI h) h.acts.moves fun j _ => grows_update h.quiet.toGrows j

theorem Refined.of_reboot (hI : a.Inv) (hS : Sim Φ σ a) {e : Event n C D}
    (he : σ.rebooted e = some i) {ps : Persister n C D}
    (h : ∃ a', MemberMoves i a a' ∧ NodeSim Φ a' i (Raft.make i ps)) :
    ∃ a', Refined Φ σ a e (σ.reboot i ps) a' := by
  obtain ⟨a', hacts, hnode⟩ := h
  refine ⟨a', .of_moves hI (hS.reboot hI hacts hnode) hacts.moves fun j hj => ?_⟩
  have hji : j ≠ i := fun h => hj (h ▸ he)
  rw [Cluster.reboot]
  simp only [Function.update_of_ne hji]
  exact (Quiet.refl _).toGrows

theorem electionTimeout_refines (hI : a.Inv) (hS : Sim Φ σ a) (i : Fin n) :
    ∃ σ' a', σ.exec (.electionTimeout i) = some σ' ∧
      Refined Φ σ a (.electionTimeout i) σ' a' := by
  rw [Cluster.exec]
  split_ifs with hl
  · exact ⟨σ, a, rfl, .of_moves hI hS .refl fun _ _ => (Quiet.refl _).toGrows⟩
  have h := hS.node i
  obtain ⟨rf', heq, hnode, hgrows, hterm, hvotes⟩ := becomeCandidate_refines hI h
  have hacts := MemberMoves.stand i a
  obtain ⟨_, hx⟩ := hacts.inv hI
  have hself : (σ.setNode i rf').nodes i = rf' := Function.update_self ..
  have hstand := fun args votes => votesOk_stand hS hterm hvotes args votes
  rw [heq]
  refine ⟨_, a.stand i, rfl, .of_moves hI ?_ hacts.moves fun j _ => grows_update hgrows j⟩
  have hS₁ : Sim Φ (σ.setNode i rf') (a.stand i) := by
    refine hS.update hI hx hacts.others hnode ?_ fun _ => ?_
    · exact fun rpc => WaitOk.mono hgrows.term fun hc => by omega
    · exact (hstand ⟨0, i, 0, 0⟩ 0).mono (.refl _) rfl rfl fun t r v hr =>
        ⟨Finset.mem_union_left _ hr.1, by
          obtain ⟨_, rpc, args, hrpc, hrest⟩ := hr
          refine ⟨rpc, args, ?_, hrest⟩
          rw [Cluster.call, List.getElem?_append_left (List.getElem?_eq_some_iff.mp hrpc).1]
          exact hrpc⟩
  refine hS₁.call (fun rpc hrpc => ?_) fun j hj => ?_
  · obtain ⟨k, hk⟩ := List.mem_iff_getElem?.mp hrpc
    obtain ⟨hrpc, _, _⟩ := voteRequests_getElem? hk
    rw [hrpc]
    refine ⟨(rpcOk_requestVote rfl).mpr ⟨rfl, a.log i, ?_, rfl, rfl⟩, ?_⟩
    · simp [State.stand, h.term]
    · intro args hargs
      cases hargs
      simp only [hself, hterm, hvotes, List.length_append, List.length_singleton]
      exact ⟨Nat.le_refl _, fun _ => trivial⟩
  · by_cases hji : j = i
    · subst hji
      exact hstand _ _
    · refine (hS₁.votes j hj).mono (.refl _) rfl rfl fun t r v hr => ?_
      rcases asks_call hr with hr | ⟨k, rpc, _, _, hk, hsrc, _⟩
      · exact hr
      · rw [(voteRequests_getElem? hk).1] at hsrc
        exact absurd hsrc.symm hji

/-- Every event that can happen succeeds, and the cluster goes on showing a
state of the protocol. -/
theorem exec_refines (hI : a.Inv) (hS : Sim Φ σ a) {e : Event n C D} (he : σ.Enabled e)
    (hΦ : SnapOk Φ σ a e) : ∃ σ' a', σ.exec e = some σ' ∧ Refined Φ σ a e σ' a' := by
  cases e with
  | electionTimeout i => exact electionTimeout_refines hI hS i
  | crashInBecomeCandidate i =>
    obtain ⟨a', h⟩ := Refined.of_reboot hI hS (e := .crashInBecomeCandidate i) rfl
      (crashInBecomeCandidate_refines hI (hS.node i))
    exact ⟨_, a', rfl, h⟩
  | start i command =>
    by_cases hl : (σ.nodes i).state = .leader
    · have hrole : a.role i = .leader := by rw [(hS.node i).role, hl, NodeState.role]
      obtain ⟨hnode, hquiet⟩ := start_refines hI (hS.node i) hl command
      have hsame : ∀ j, j ≠ i → SameAt a (a.propose i command) j := fun j hj =>
        ⟨rfl, rfl, rfl, by simp [State.propose, hj]⟩
      refine ⟨_, _, rfl, ?_, .single (.propose i command hrole), fun hs => ?_, fun j _ => ?_⟩
      · exact hS.setNode hI (State.extends_propose hI hrole command) hsame hnode hquiet
      · rcases State.hasSlot_of_propose hI hrole hs with hs | ⟨hk, hs⟩
        · exact Or.inl hs
        · refine Or.inr ⟨i, command, rfl, hl, ?_, ?_⟩
          · rw [hk, (hS.node i).repr.getLen]
          · rw [hs, (hS.node i).term]
      · exact grows_update hquiet.toGrows j
    · refine ⟨_, a, rfl, .of_handled hI hS ?_⟩
      rw [Raft.start, if_pos hl]
      exact .refl (hS.node i)
  | replicate i peer =>
    rw [Cluster.exec]
    rcases replicateToPeer_refines hI hS i peer with heq | ⟨args, heq, hok, hnot⟩
    · rw [heq]
      exact ⟨σ, a, rfl, .of_moves hI hS .refl fun _ _ => (Quiet.refl _).toGrows⟩
    · rw [heq]
      refine ⟨_, a, rfl, .of_moves hI ?_ .refl fun _ _ => (Quiet.refl _).toGrows⟩
      refine hS.call (fun rpc hrpc => ?_) fun j hj => ?_
      · rw [List.mem_singleton.mp hrpc]
        exact ⟨hok, fun rv hrv => absurd hrv (hnot rv)⟩
      · refine (hS.votes j hj).mono (.refl a) rfl rfl fun t r v hr => ?_
        rcases asks_call hr with hr | ⟨k, rpc, rv, _, hk, _, _, hargs, _⟩
        · exact hr
        · rw [List.mem_singleton.mp (List.mem_of_getElem? hk)] at hargs
          exact absurd hargs (hnot rv)
  | deliver r =>
    obtain ⟨rpc, hrpc⟩ : ∃ rpc, σ.rpcs[r]? = some rpc := ⟨_, List.getElem?_eq_getElem he⟩
    obtain ⟨rf', reply, a', heq, hh, hok⟩ := handleRequest_refines hI hS (hS.rpc hrpc)
    refine ⟨_, a', by rw [Cluster.exec, hrpc]; simp only [heq]; rfl, .of_moves hI ?_ hh.acts.moves
      fun j _ => grows_update hh.quiet.toGrows j⟩
    exact (hS.handled hI hh).addReply hrpc hok
  | undecodable r =>
    obtain ⟨rpc, hrpc, args, hargs⟩ := he
    refine ⟨_, a, by rw [Cluster.exec, Option.mem_def.mp hrpc], .of_moves hI
      (hS.addReply hrpc ?_) .refl fun _ _ => (Quiet.refl _).toGrows⟩
    exact (replyOk_appendEntries hargs).mpr ⟨fun hs => by simp at hs, fun _ => Or.inr (by simp)⟩
  | crashInInstallSnapshot r =>
    obtain ⟨⟨src, dst, rargs, votes⟩, hrpc, args, hargs, hterm⟩ := he
    cases hargs
    obtain ⟨a', h⟩ := Refined.of_reboot hI hS (e := .crashInInstallSnapshot r) (i := dst)
      (by rw [Cluster.rebooted, Option.mem_def.mp hrpc, Option.map_some])
      (crashInInstallSnapshot_refines hI (hS.node dst) hterm)
    exact ⟨_, a', by rw [Cluster.exec, Option.mem_def.mp hrpc], h⟩
  | handleReply r reply =>
    obtain ⟨hr, hrep⟩ := he
    obtain ⟨rpc, hrpc, hok⟩ := hS.reply hrep
    obtain ⟨rf', a', heq, hmoves, hgrows, hsim⟩ := handleReply_refines hI hS hr hrpc hok
    refine ⟨_, a', by rw [Cluster.exec, hrpc]; simp only [heq]; rfl, .of_moves hI hsim hmoves
      fun j _ => grows_update hgrows j⟩
  | snapshot i index data =>
    obtain ⟨rf', heq, hh⟩ := snapshot_refines (hS.node i) hΦ
    exact ⟨_, a, by rw [Cluster.exec, heq]; rfl, .of_handled hI hS hh⟩
  | applierTake i =>
    obtain ⟨rf', heq, hh⟩ := applierTake_refines (hS.node i) he.1 he.2
    exact ⟨_, a, by rw [Cluster.exec, heq]; rfl, .of_handled hI hS hh⟩
  | applierSend i => exact ⟨_, a, rfl, .of_handled hI hS (applierSend_refines (hS.node i))⟩
  | restart i =>
    obtain ⟨a', h⟩ := Refined.of_reboot hI hS (e := .restart i) rfl
      (restart_refines hI (hS.node i))
    exact ⟨_, a', rfl, h⟩

/-- A fresh cluster shows the initial state of the protocol. -/
theorem sim_init (h0 : Φ [] none) : Sim Φ (Cluster.init (n := n) (C := C) (D := D))
    State.initial := by
  refine ⟨fun i => ?_, fun h => by simp [Cluster.init] at h, fun h => by simp [Cluster.init] at h,
    fun h => by simp [Cluster.init] at h, fun i h => ?_⟩
  · refine ⟨⟨rfl, rfl, rfl, rfl, rfl, rfl, ⟨Nat.le_refl _, rfl, none, rfl⟩, Nat.le_refl _,
      Nat.le_refl _, .nil _ _, Nat.le_refl _, h0, ?_, ?_, rfl⟩, rfl⟩
    · intro hl
      cases hl
    · intro msg hmsg
      cases hmsg
  · cases h

end KvRaft
