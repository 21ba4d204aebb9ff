import KvRaft.Cluster.Model
import KvRaft.Raft.Inversion

/-!
# What an event does to one node

`Acts σ e j rf` lists what the event `e` can make of node `j`: nothing, the
result of one function of the instance, or a new instance after a restart.  An
invariant of single nodes is then one case for each function, and
`Cluster.exec` is taken apart here only.
-/

namespace KvRaft.Cluster

variable {n : Nat} {C D : Type} {σ σ' : Cluster n C D} {rf rf' : Raft n C D}

/-! ## Requests and replies -/

theorem handleRequest_inv {args : RpcArgs n C D} {reply : RpcReply}
    (h : handleRequest rf args = some (rf', reply)) :
    (∃ a r, args = .requestVote a ∧ reply = .requestVote r ∧
      rf.requestVote a = some (rf', r)) ∨
    (∃ a r, args = .appendEntries a ∧ reply = .appendEntries r ∧
      rf.appendEntries a = some (rf', r)) ∨
    ∃ a r, args = .installSnapshot a ∧ reply = .installSnapshot r ∧
      rf.installSnapshot a = some (rf', r) := by
  cases args with
  | requestVote a =>
    obtain ⟨⟨_, r⟩, heq, h⟩ := Option.bind_eq_some_iff.mp h
    cases h
    exact Or.inl ⟨a, r, rfl, rfl, heq⟩
  | appendEntries a =>
    obtain ⟨⟨_, r⟩, heq, h⟩ := Option.bind_eq_some_iff.mp h
    cases h
    exact Or.inr (Or.inl ⟨a, r, rfl, rfl, heq⟩)
  | installSnapshot a =>
    obtain ⟨⟨_, r⟩, heq, h⟩ := Option.bind_eq_some_iff.mp h
    cases h
    exact Or.inr (Or.inr ⟨a, r, rfl, rfl, heq⟩)

theorem handleReply_inv {rpc : Rpc n C D} {reply : RpcReply}
    (h : handleReply rf rpc reply = some rf') : rf' = rf ∨
    (∃ a r, rpc.args = .requestVote a ∧ reply = .requestVote r ∧
      rf.requestVoteFromPeer a rpc.votes r = some rf') ∨
    (∃ a r, rpc.args = .appendEntries a ∧ reply = .appendEntries r ∧
      rf.handleAppendEntriesReply rpc.dst a r = some rf') ∨
    ∃ a r, rpc.args = .installSnapshot a ∧ reply = .installSnapshot r ∧
      rf' = rf.handleInstallSnapshotReply rpc.dst a r := by
  cases reply with
  | requestVote r =>
    simp only [handleReply] at h
    split at h
    · next a ha => exact Or.inr (Or.inl ⟨a, r, ha, rfl, h⟩)
    · cases h
      exact Or.inl rfl
  | appendEntries r =>
    simp only [handleReply] at h
    split at h
    · next a ha => exact Or.inr (Or.inr (Or.inl ⟨a, r, ha, rfl, h⟩))
    · cases h
      exact Or.inl rfl
  | installSnapshot r =>
    simp only [handleReply] at h
    split at h
    · next a ha =>
      cases h
      exact Or.inr (Or.inr (Or.inr ⟨a, r, ha, rfl, rfl⟩))
    · cases h
      exact Or.inl rfl

/-! ## Events -/

/-- What the event `e` makes of node `j`. -/
inductive Acts (σ : Cluster n C D) : Event n C D → Fin n → Raft n C D → Prop where
  | idle (e : Event n C D) (j : Fin n) : Acts σ e j (σ.nodes j)
  | elect {j : Fin n} {rf : Raft n C D} {args : RequestVoteArgs n} {votes : Nat}
      (h : (σ.nodes j).becomeCandidate = some (rf, args, votes)) :
      Acts σ (.electionTimeout j) j rf
  | start (j : Fin n) (command : Option C) :
      Acts σ (.start j command) j ((σ.nodes j).start command).1
  | request {r : Nat} {rpc : Rpc n C D} {rf : Raft n C D} {reply : RpcReply}
      (hrpc : σ.rpcs[r]? = some rpc)
      (h : handleRequest (σ.nodes rpc.dst) rpc.args = some (rf, reply)) :
      Acts σ (.deliver r) rpc.dst rf
  | reply {r : Nat} {rpc : Rpc n C D} {rf : Raft n C D} {reply : RpcReply}
      (hrpc : σ.rpcs[r]? = some rpc) (h : handleReply (σ.nodes rpc.src) rpc reply = some rf) :
      Acts σ (.handleReply r reply) rpc.src rf
  | snapshot {j : Fin n} {rf : Raft n C D} {index : Nat} {data : Option D}
      (h : (σ.nodes j).snapshot index data = some rf) : Acts σ (.snapshot j index data) j rf
  | take {j : Fin n} {rf : Raft n C D} (h : (σ.nodes j).applierTake = some rf) :
      Acts σ (.applierTake j) j rf
  | send (j : Fin n) : Acts σ (.applierSend j) j (σ.nodes j).applierSend
  | boot {e : Event n C D} {j : Fin n} (h : σ.rebooted e = some j) (ps : Persister n C D) :
      Acts σ e j (.make j ps)

/-- An event that replaces one node leaves the others alone. -/
theorem Acts.update {e : Event n C D} {i : Fin n} (h : σ.Acts e i rf) (j : Fin n) :
    σ.Acts e j (Function.update σ.nodes i rf j) := by
  by_cases hji : j = i
  · subst hji
    rw [Function.update_self]
    exact h
  · rw [Function.update_of_ne hji]
    exact .idle e j

theorem exec_acts {e : Event n C D} (h : σ.exec e = some σ') (j : Fin n) :
    σ.Acts e j (σ'.nodes j) := by
  cases e with
  | electionTimeout i =>
    rw [exec] at h
    split_ifs at h
    · cases h
      exact .idle _ j
    · obtain ⟨⟨rf, args, votes⟩, helect, h⟩ := Option.bind_eq_some_iff.mp h
      cases h
      exact (Acts.elect helect).update j
  | crashInBecomeCandidate i =>
    cases h
    exact (Acts.boot rfl _).update j
  | start i command =>
    cases h
    exact (Acts.start i command).update j
  | replicate i peer =>
    obtain ⟨o, _, h⟩ := Option.bind_eq_some_iff.mp h
    cases o <;> cases h <;> exact .idle _ j
  | deliver r =>
    rw [exec] at h
    cases hrpc : σ.rpcs[r]? with
    | none =>
      rw [hrpc] at h
      cases h
      exact .idle _ j
    | some rpc =>
      rw [hrpc] at h
      obtain ⟨⟨rf, reply⟩, hreq, h⟩ := Option.bind_eq_some_iff.mp h
      cases h
      exact (Acts.request hrpc hreq).update j
  | undecodable r =>
    rw [exec] at h
    split at h <;> cases h <;> exact .idle _ j
  | crashInInstallSnapshot r =>
    rw [exec] at h
    split at h
    · next src dst args votes hrpc =>
      cases h
      exact (Acts.boot (by rw [rebooted, hrpc, Option.map_some]) _).update j
    · cases h
      exact .idle _ j
  | handleReply r reply =>
    rw [exec] at h
    cases hrpc : σ.rpcs[r]? with
    | none =>
      rw [hrpc] at h
      cases h
      exact .idle _ j
    | some rpc =>
      rw [hrpc] at h
      obtain ⟨rf, hreply, h⟩ := Option.bind_eq_some_iff.mp h
      cases h
      exact (Acts.reply hrpc hreply).update j
  | snapshot i index data =>
    obtain ⟨rf, hsnap, h⟩ := Option.bind_eq_some_iff.mp h
    cases h
    exact (Acts.snapshot hsnap).update j
  | applierTake i =>
    obtain ⟨rf, htake, h⟩ := Option.bind_eq_some_iff.mp h
    cases h
    exact (Acts.take htake).update j
  | applierSend i =>
    cases h
    exact (Acts.send i).update j
  | restart i =>
    cases h
    exact (Acts.boot rfl _).update j

theorem getElem?_call {new : List (Rpc n C D)} {r : Nat} {rpc : Rpc n C D}
    (h : (σ.call new).rpcs[r]? = some rpc) : σ.rpcs[r]? = some rpc ∨ rpc ∈ new := by
  rw [call, List.getElem?_append] at h
  split_ifs at h
  · exact Or.inl h
  · exact Or.inr (List.mem_of_getElem? h)

/-- Where a call comes from. -/
theorem exec_rpc {e : Event n C D} (h : σ.exec e = some σ') {r : Nat} {rpc : Rpc n C D}
    (hr : σ'.rpcs[r]? = some rpc) : σ.rpcs[r]? = some rpc ∨
      (∃ args, rpc.args = .requestVote args) ∨
      σ'.nodes = σ.nodes ∧ (σ.nodes rpc.src).replicateToPeer rpc.dst = some (some rpc.args) := by
  cases e with
  | electionTimeout i =>
    rw [exec] at h
    split_ifs at h
    · cases h
      exact Or.inl hr
    · obtain ⟨⟨rf, args, votes⟩, _, h⟩ := Option.bind_eq_some_iff.mp h
      cases h
      rcases getElem?_call hr with hr | hr
      · exact Or.inl hr
      · obtain ⟨peer, _, rfl⟩ := List.mem_map.mp hr
        exact Or.inr (Or.inl ⟨args, rfl⟩)
  | replicate i peer =>
    obtain ⟨o, ho, h⟩ := Option.bind_eq_some_iff.mp h
    cases o with
    | none =>
      cases h
      exact Or.inl hr
    | some args =>
      cases h
      rcases getElem?_call hr with hr | hr
      · exact Or.inl hr
      · cases List.mem_singleton.mp hr
        exact Or.inr (Or.inr ⟨rfl, ho⟩)
  | deliver r | handleReply r reply =>
    rw [exec] at h
    split at h
    · cases h
      exact Or.inl hr
    · obtain ⟨_, _, h⟩ := Option.bind_eq_some_iff.mp h
      cases h
      exact Or.inl hr
  | undecodable r | crashInInstallSnapshot r =>
    rw [exec] at h
    split at h <;> cases h <;> exact Or.inl hr
  | snapshot | applierTake =>
    obtain ⟨_, _, h⟩ := Option.bind_eq_some_iff.mp h
    cases h
    exact Or.inl hr
  | crashInBecomeCandidate | start | applierSend | restart =>
    cases h
    exact Or.inl hr

end KvRaft.Cluster
