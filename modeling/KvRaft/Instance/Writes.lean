import KvRaft.Cluster.Acts
import KvRaft.Instance.Model

/-!
# What a handler writes

Three things can happen to the disk of an instance: nothing, a `persist`, or the
`Save` of a new snapshot.  `Raft.Writes` says which, and `Raft.react_reacts`
says that every input is one of these.  An election persists twice, and the
applier's steps write nothing.

A handler leaves the applier's messages and the `dead` flag alone (`Frame`).
-/

namespace KvRaft.Raft

variable {n : Nat} {C D : Type} {rf rf' : Raft n C D}

/-- What no handler touches. -/
structure Frame (rf rf' : Raft n C D) : Prop where
  me : rf'.me = rf.me
  dead : rf'.dead = rf.dead
  applying : rf'.applying = rf.applying
  applyCh : rf'.applyCh = rf.applyCh

/-- What a handler does to the disk.  The first argument is the snapshot that it
stores. -/
inductive Writes (rf : Raft n C D) : Option (Nat × Option D) → Raft n C D → Prop where
  | keep {rf' : Raft n C D} (frame : Frame rf rf') (persister : rf'.persister = rf.persister)
      (state : rf'.encodeState = rf.encodeState) : Writes rf none rf'
  | persist {rf' : Raft n C D} (frame : Frame rf rf')
      (snap : rf'.lastIncludedIndex = rf.lastIncludedIndex)
      (persister : rf'.persister = if rf.dead then rf.persister else
        rf.persister.save rf'.encodeState rf.persister.readSnapshot) : Writes rf none rf'
  | save {rf' : Raft n C D} (index : Nat) (data : Option D) (frame : Frame rf rf')
      (lt : rf.lastIncludedIndex < index) (snap : rf'.lastIncludedIndex = index)
      (persister : rf'.persister = rf.persister.save rf'.encodeState data) :
      Writes rf (some (index, data)) rf'

theorem Frame.refl (rf : Raft n C D) : Frame rf rf := ⟨rfl, rfl, rfl, rfl⟩

theorem Frame.trans {rf'' : Raft n C D} (h : Frame rf rf') (h' : Frame rf' rf'') : Frame rf rf'' :=
  ⟨h'.me.trans h.me, h'.dead.trans h.dead, h'.applying.trans h.applying,
    h'.applyCh.trans h.applyCh⟩

theorem Writes.refl (rf : Raft n C D) : Writes rf none rf := .keep (.refl rf) rfl rfl

theorem Writes.frame {stored : Option (Nat × Option D)} (h : Writes rf stored rf') :
    Frame rf rf' := by
  cases h with
  | keep frame => exact frame
  | persist frame => exact frame
  | save _ _ frame => exact frame

/-- What happens to the memory outside the five durable fields does not matter. -/
theorem Writes.congr {stored : Option (Nat × Option D)} {rf'' : Raft n C D}
    (h : Writes rf stored rf') (hframe : Frame rf' rf'') (hp : rf''.persister = rf'.persister)
    (hs : rf''.encodeState = rf'.encodeState) : Writes rf stored rf'' := by
  have hsnap : rf''.lastIncludedIndex = rf'.lastIncludedIndex :=
    congrArg RaftState.lastIncludedIndex hs
  cases h with
  | keep frame hp' hs' => exact .keep (frame.trans hframe) (hp.trans hp') (hs.trans hs')
  | persist frame hsnap' hp' =>
    exact .persist (frame.trans hframe) (hsnap.trans hsnap') (by rw [hp, hp', hs])
  | save index data frame lt hsnap' hp' =>
    exact .save index data (frame.trans hframe) lt (hsnap.trans hsnap') (by rw [hp, hp', hs])

theorem Frame.persist (rf : Raft n C D) : Frame rf rf.persist := by
  unfold Raft.persist
  split_ifs
  · exact .refl rf
  · exact ⟨rfl, rfl, rfl, rfl⟩

/-- A handler that changes its memory and persists. -/
theorem Writes.of_persist {rf₁ : Raft n C D} (hframe : Frame rf rf₁)
    (hpersister : rf₁.persister = rf.persister)
    (hsnap : rf₁.lastIncludedIndex = rf.lastIncludedIndex) : Writes rf none rf₁.persist := by
  have hstate := congrArg RaftState.lastIncludedIndex (encodeState_persist rf₁)
  refine .persist (hframe.trans (.persist rf₁)) (Eq.trans hstate hsnap) ?_
  rw [encodeState_persist, Raft.persist, ← hframe.dead]
  split_ifs
  · exact hpersister
  · exact congrArg₂ (fun ps d => Persister.save ps rf₁.encodeState d) hpersister
      (congrArg Persister.readSnapshot hpersister)

/-! ## Terms, votes and commands -/

theorem start_writes (rf : Raft n C D) (command : Option C) :
    Writes rf none (rf.start command).1 := by
  unfold start
  split_ifs
  · exact .refl rf
  · exact .of_persist ⟨rfl, rfl, rfl, rfl⟩ rfl rfl

theorem handleHigherTerm_writes (rf : Raft n C D) (term : Nat) :
    Writes rf none (rf.handleHigherTerm term).1 := by
  unfold handleHigherTerm
  split_ifs
  · exact .of_persist ⟨rfl, rfl, rfl, rfl⟩ rfl rfl
  · exact .refl rf

theorem becomeCandidateTerm_writes (rf : Raft n C D) : Writes rf none rf.becomeCandidateTerm :=
  .of_persist ⟨rfl, rfl, rfl, rfl⟩ rfl rfl

theorem startElection_writes {args : RequestVoteArgs n} {votes : Nat}
    (h : rf.startElection = some (rf', args, votes)) : Writes rf none rf' := by
  rw [(startElection_inv h).1]
  have hw : Writes rf none
      ({ rf with votedFor := some rf.me, currentLeader := none } : Raft n C D).persist :=
    .of_persist ⟨rfl, rfl, rfl, rfl⟩ rfl rfl
  exact hw.congr ⟨rfl, rfl, rfl, rfl⟩ rfl rfl

/-! ## Requests -/

theorem requestVote_writes {args : RequestVoteArgs n} {reply : RequestVoteReply}
    (h : rf.requestVote args = some (rf', reply)) : Writes rf none rf' := by
  obtain ⟨_, rfl, _⟩ | ⟨_, _, _, rfl, _, _⟩ := requestVote_inv h
  · exact .refl rf'
  · exact .of_persist ⟨rfl, rfl, rfl, rfl⟩ rfl rfl

theorem appendEntries_writes {args : AppendEntriesArgs n C} {reply : AppendEntriesReply}
    (h : rf.appendEntries args = some (rf', reply)) : Writes rf none rf' := by
  obtain ⟨_, rfl, _⟩ | ⟨_, ⟨_, _, _, rfl, _⟩ | ⟨rf₁, _, happend, rfl, _⟩⟩ := appendEntries_inv h
  · exact .refl rf'
  · exact .of_persist ⟨rfl, rfl, rfl, rfl⟩ rfl rfl
  · rw [advanceCommitIndex_eq, appendNewEntries_eq happend]
    exact .of_persist ⟨rfl, rfl, rfl, rfl⟩ rfl rfl

theorem heed_writes (rf : Raft n C D) (term : Nat) (leader : Fin n) :
    Writes rf none (rf.heed term leader) := by
  have hw : Writes rf none (rf.installSnapshotTerm term) := by
    unfold installSnapshotTerm
    split_ifs
    · exact .of_persist ⟨rfl, rfl, rfl, rfl⟩ rfl rfl
    · exact .refl rf
  exact hw.congr ⟨rfl, rfl, rfl, rfl⟩ rfl rfl

/-- A `Save` replaces everything that was on the disk. -/
theorem Writes.save_eq (h : Writes rf none rf') (state : RaftState n C) (data : Option D) :
    rf'.persister.save state data = rf.persister.save state data := by
  cases h with
  | keep _ hp => rw [hp]
  | persist _ _ hp =>
    rw [hp]
    split_ifs <;> rfl

theorem installSnapshot_writes {args : InstallSnapshotArgs n D} {reply : InstallSnapshotReply}
    (h : rf.installSnapshot args = some (rf', reply)) :
    Writes rf (rf.accepted (.request (.installSnapshot args))) rf' := by
  have hheed := heed_writes rf args.term args.leaderId
  obtain ⟨_, ⟨hterm, rfl⟩ | ⟨hterm, ⟨hle, rfl⟩ | ⟨hlt, rf₁, htrunc, rfl⟩⟩⟩ := installSnapshot_inv h
  · simp only [accepted, hterm, true_or, if_true]
    exact .refl rf'
  · simp only [accepted, hle, or_true, if_true]
    exact hheed
  · simp only [accepted, hterm, Nat.not_le_of_lt hlt, or_self, if_false]
    have hrf₁ := truncateLogWithSnapshot_eq htrunc
    refine .save _ _ (hheed.frame.trans ?_) hlt rfl ?_
    · rw [hrf₁]
      exact ⟨rfl, rfl, rfl, rfl⟩
    · rw [show rf₁.persister = (rf.heed args.term args.leaderId).persister by rw [hrf₁]]
      exact hheed.save_eq _ _

theorem snapshot_writes {index : Nat} {data : Option D} (h : rf.snapshot index data = some rf') :
    Writes rf (rf.accepted (.snapshot index data)) rf' := by
  obtain ⟨hrefuse, rfl⟩ | ⟨haccept, logs, term, _, rfl⟩ := snapshot_inv h
  · simp only [accepted, hrefuse, if_true]
    exact .refl rf'
  · simp only [accepted, haccept, if_false]
    exact .save index data ⟨rfl, rfl, rfl, rfl⟩ (by omega) rfl rfl

theorem handleRequest_writes {args : RpcArgs n C D} {reply : RpcReply}
    (h : Cluster.handleRequest rf args = some (rf', reply)) :
    Writes rf (rf.accepted (.request args)) rf' := by
  obtain ⟨_, _, rfl, _, h⟩ | ⟨_, _, rfl, _, h⟩ | ⟨_, _, rfl, _, h⟩ := Cluster.handleRequest_inv h
  · exact requestVote_writes h
  · exact appendEntries_writes h
  · exact installSnapshot_writes h

/-! ## Replies -/

theorem requestVoteFromPeer_writes {args : RequestVoteArgs n} {votes : Nat}
    {reply : RequestVoteReply} (h : rf.requestVoteFromPeer args votes reply = some rf') :
    Writes rf none rf' := by
  rcases requestVoteFromPeer_inv h with heq | ⟨granted, heq | ⟨_, hwon⟩⟩
  · rw [heq]
    exact handleHigherTerm_writes rf _
  · rw [heq]
    exact .keep ⟨rfl, rfl, rfl, rfl⟩ rfl rfl
  · obtain ⟨last, _, rfl⟩ := becomeLeader_inv hwon
    exact .keep ⟨rfl, rfl, rfl, rfl⟩ rfl rfl

theorem handleAppendEntriesReply_writes {peer : Fin n} {args : AppendEntriesArgs n C}
    {reply : AppendEntriesReply} (h : rf.handleAppendEntriesReply peer args reply = some rf') :
    Writes rf none rf' := by
  rcases handleAppendEntriesReply_eq h with heq | heq
  · rw [heq]
    exact handleHigherTerm_writes rf _
  · rw [heq]
    exact .keep ⟨rfl, rfl, rfl, rfl⟩ rfl rfl

theorem handleInstallSnapshotReply_writes (rf : Raft n C D) (peer : Fin n)
    (args : InstallSnapshotArgs n D) (reply : InstallSnapshotReply) :
    Writes rf none (rf.handleInstallSnapshotReply peer args reply) := by
  rcases handleInstallSnapshotReply_inv rf peer args reply with heq | ⟨_, heq⟩
  · rw [heq]
    exact handleHigherTerm_writes rf _
  · rw [heq]
    exact .keep ⟨rfl, rfl, rfl, rfl⟩ rfl rfl

theorem handleReply_writes {rpc : Rpc n C D} {reply : RpcReply}
    (h : Cluster.handleReply rf rpc reply = some rf') : Writes rf none rf' := by
  obtain rfl | ⟨_, _, _, _, h⟩ | ⟨_, _, _, _, h⟩ | ⟨_, _, _, _, rfl⟩ := Cluster.handleReply_inv h
  · exact .refl rf'
  · exact requestVoteFromPeer_writes h
  · exact handleAppendEntriesReply_writes h
  · exact handleInstallSnapshotReply_writes ..

/-! ## Every input -/

/-- What an input can do, with the outcome of its second `ReadSnapshot` and the
snapshot that it stores. -/
inductive Reacts (rf : Raft n C D) (second : Option (Option D)) :
    Option (Nat × Option D) → Raft n C D → Prop where
  | writes {stored : Option (Nat × Option D)} {rf' : Raft n C D} (h : Writes rf stored rf') :
      Reacts rf second stored rf'
  | election {rf' : Raft n C D} (rf₁ : Raft n C D) (h₁ : Writes rf none rf₁)
      (h₂ : Writes (rf₁.failRead second) none rf') : Reacts rf second none rf'
  | take {rf' : Raft n C D} (h : rf.applierTake = some rf') : Reacts rf second none rf'
  | send : Reacts rf second none rf.applierSend
  | kill : Reacts rf second none { rf with dead := true }

theorem react_reacts {input : Input n C D} {out : List (Output n C D)}
    (h : rf.react input = some (rf', out)) :
    Reacts rf input.second (rf.accepted input) rf' := by
  cases input with
  | start command =>
    cases h
    exact .writes (start_writes rf command)
  | electionTimeout second =>
    simp only [react] at h
    split_ifs at h
    · cases h
      exact .writes (.refl rf)
    · obtain ⟨⟨_, args, votes⟩, helect, h⟩ := Option.bind_eq_some_iff.mp h
      cases h
      exact .election _ (becomeCandidateTerm_writes rf) (startElection_writes helect)
  | request args =>
    obtain ⟨⟨_, reply⟩, hreq, h⟩ := Option.bind_eq_some_iff.mp h
    cases h
    exact .writes (handleRequest_writes hreq)
  | reply rpc reply =>
    obtain ⟨_, hreply, h⟩ := Option.bind_eq_some_iff.mp h
    cases h
    exact .writes (handleReply_writes hreply)
  | snapshot index data =>
    obtain ⟨_, hsnap, h⟩ := Option.bind_eq_some_iff.mp h
    cases h
    exact .writes (snapshot_writes hsnap)
  | replicate peer =>
    obtain ⟨args, _, h⟩ := Option.bind_eq_some_iff.mp h
    cases h
    exact .writes (.refl rf)
  | applierTake =>
    simp only [react] at h
    split_ifs at h
    obtain ⟨_, htake, h⟩ := Option.bind_eq_some_iff.mp h
    cases h
    exact .take htake
  | applierSend =>
    simp only [react] at h
    split_ifs at h
    cases h
    exact .send
  | kill =>
    cases h
    exact .kill

/-! ## What leaves -/

/-- Where a message comes from. -/
inductive Emits (rf : Raft n C D) : Raft n C D → Output n C D → Prop where
  | election {rf' : Raft n C D} (rf₁ : Raft n C D) (args : RequestVoteArgs n) (votes : Nat)
      (h : rf₁.startElection = some (rf', args, votes)) :
      Emits rf rf' (.request (.requestVote args))
  | replicate (peer : Fin n) (args : RpcArgs n C D)
      (h : rf.replicateToPeer peer = some (some args)) : Emits rf rf (.request args)
  | reply {rf' : Raft n C D} (args : RpcArgs n C D) (reply : RpcReply)
      (h : Cluster.handleRequest rf args = some (rf', reply)) : Emits rf rf' (.reply args reply)

theorem react_emits {input : Input n C D} {out : List (Output n C D)}
    (h : rf.react input = some (rf', out)) {o : Output n C D} (ho : o ∈ out) : Emits rf rf' o := by
  cases input with
  | start | kill =>
    cases h
    cases ho
  | electionTimeout second =>
    simp only [react] at h
    split_ifs at h
    · cases h
      cases ho
    · obtain ⟨⟨_, args, votes⟩, helect, h⟩ := Option.bind_eq_some_iff.mp h
      cases h
      cases List.mem_singleton.mp ho
      exact .election _ args votes helect
  | request args =>
    obtain ⟨⟨_, reply⟩, hreq, h⟩ := Option.bind_eq_some_iff.mp h
    cases h
    cases List.mem_singleton.mp ho
    exact .reply args reply hreq
  | reply | snapshot =>
    obtain ⟨_, _, h⟩ := Option.bind_eq_some_iff.mp h
    cases h
    cases ho
  | replicate peer =>
    obtain ⟨args, hargs, h⟩ := Option.bind_eq_some_iff.mp h
    cases h
    obtain ⟨args, hmem, rfl⟩ := List.mem_map.mp ho
    rw [Option.mem_toList] at hmem
    exact .replicate peer args (hmem ▸ hargs)
  | applierTake =>
    simp only [react] at h
    split_ifs at h
    obtain ⟨_, _, h⟩ := Option.bind_eq_some_iff.mp h
    cases h
    cases ho
  | applierSend =>
    simp only [react] at h
    split_ifs at h
    cases h
    cases ho

end KvRaft.Raft
