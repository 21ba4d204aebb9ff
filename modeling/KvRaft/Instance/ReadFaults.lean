import KvRaft.Instance.Durability

/-!
# Snapshots and failing reads

`persist` reads the stored snapshot and writes it back, and `ReadSnapshot` is
also asked for the data of `InstallSnapshot` requests and of snapshot messages
for the service.  The error of a failing read is ignored in all three places.

`Intact` says that the disk holds the last snapshot that was stored, and that
nothing was sent but what was stored.  One failing read is enough to lose a
snapshot (`faultyRun_not_intact`).  Snapshots stay intact in every run whose
reads return what is on the disk, and in particular in every run without
errors (`instance_intact_of_readsDisk`).
-/

namespace KvRaft

variable {n : Nat} {C D : Type}

/-- The disk holds the last stored snapshot, and what left the instance was
stored for its index. -/
structure Intact (σ : Instance n C D) : Prop where
  disk : σ.stored.getLast?.map Prod.snd = some σ.raft.persister.snapshot
  /-- Every index has one snapshot. -/
  sorted : σ.stored.Pairwise fun a b => a.1 < b.1
  requests : ∀ args, RpcArgs.installSnapshot args ∈ σ.sent →
    (args.lastIncludedIndex, args.data) ∈ σ.stored
  messages : ∀ data term index, ApplyMsg.snapshot data term index ∈ σ.raft.applyCh →
    (index, data) ∈ σ.stored

/-- A read that fails still returns what is on the disk. -/
def Persister.Returns (ps : Persister n C D) (fault : Option (Option D)) : Prop :=
  fault = none ∨ fault = some ps.snapshot

/-- The reads of a step return what is on the disk. -/
def ReadsDisk (σ : Instance n C D) (e : Option (Option D) × Input n C D) : Prop :=
  σ.raft.persister.Returns e.1 ∧ σ.raft.persister.Returns e.2.second

instance [DecidableEq D] (ps : Persister n C D) : DecidablePred ps.Returns := fun fault =>
  inferInstanceAs (Decidable (fault = none ∨ fault = some ps.snapshot))

instance [DecidableEq D] (σ : Instance n C D) : DecidablePred (ReadsDisk σ) := fun e =>
  inferInstanceAs (Decidable (σ.raft.persister.Returns e.1 ∧ σ.raft.persister.Returns e.2.second))

/-- All reads of a run return what is on the disk. -/
def ReadsDiskRun {me : Fin n} {persister : Persister n C D} (run : InstanceRun me persister) :
    Prop :=
  ∀ t, (∃ e, ReadsDisk (run.state t) e ∧ (run.state t).exec e = some (run.state (t + 1))) ∨
    run.state (t + 1) = run.state t

/-! ## A lost snapshot -/

/-- A follower takes over a snapshot.  Then its election timer fires, and
`ReadSnapshot` fails while the new term is persisted. -/
def faultyEvents : List (Option (Option Nat) × Input 3 Nat Nat) :=
  [(none, .request (.installSnapshot ⟨1, node1, 1, 1, some 7⟩)),
    (some none, .electionTimeout none)]

/-- The run of `faultyEvents`. -/
def faultyRun : InstanceRun (C := Nat) (D := Nat) node0 .empty :=
  Run.ofEvents _ Instance.exec faultyEvents

/-- The snapshot is gone from the disk. -/
theorem faultyRun_not_intact : ¬ ∀ t, Intact (faultyRun.state t) := by
  intro h
  have hdisk := (h 2).disk
  revert hdisk
  decide

/-! ## Reads of what is on the disk -/

namespace Raft

variable {rf rf' : Raft n C D}

theorem readSnapshot_of_returns {fault : Option (Option D)}
    (h : rf.persister.Returns fault) : (rf.failRead fault).persister.readSnapshot =
      (rf.failRead fault).persister.snapshot := by
  rcases h with rfl | rfl <;> rfl

/-- A handler leaves the disk with the snapshot that it stored, or with the old
one, under the index of the log's base. -/
theorem Writes.snapshot_eq {stored : Option (Nat × Option D)} (h : Writes rf stored rf')
    (hread : rf.persister.readSnapshot = rf.persister.snapshot) :
    (rf'.lastIncludedIndex, rf'.persister.snapshot) =
      stored.getD (rf.lastIncludedIndex, rf.persister.snapshot) := by
  cases h with
  | keep _ hp hstate =>
    rw [hp, show rf'.lastIncludedIndex = rf.lastIncludedIndex from
      congrArg RaftState.lastIncludedIndex hstate, Option.getD_none]
  | persist _ hsnap hp =>
    rw [hsnap, hp, Option.getD_none]
    split_ifs
    · rfl
    · rw [Persister.save, hread]
  | save index data _ _ hsnap hp =>
    rw [hsnap, hp]
    rfl

/-- A snapshot in a request is what `ReadSnapshot` returned. -/
theorem react_sent {input : Input n C D} {out : List (Output n C D)}
    (h : rf.react input = some (rf', out)) {args : InstallSnapshotArgs n D}
    (hmem : RpcArgs.installSnapshot args ∈ out.filterMap Output.sent?) :
    (args.lastIncludedIndex, args.data) =
      (rf.lastIncludedIndex, rf.persister.readSnapshot) := by
  obtain ⟨o, ho, hsent⟩ := List.mem_filterMap.mp hmem
  cases react_emits h ho with
  | election => cases hsent
  | reply => cases hsent
  | replicate peer args' hargs =>
    cases hsent
    obtain ⟨_, ⟨_, hsnap⟩ | ⟨_, _, _, happend⟩⟩ := replicateToPeer_inv hargs
    · cases hsnap
      rfl
    · cases happend

/-- What the applier copies is a snapshot that `ReadSnapshot` returned, or a
batch of commands. -/
theorem applierTake_snapshot (h : rf.applierTake = some rf') {data : Option D}
    {term index : Nat} (hmem : .snapshot data term index ∈ rf'.applying) :
    (index, data) = (rf.lastIncludedIndex, rf.persister.readSnapshot) := by
  unfold applierTake at h
  split_ifs at h
  · cases h
    cases List.mem_singleton.mp hmem
    rfl
  · obtain ⟨entries, _, h⟩ := Option.bind_eq_some_iff.mp h
    cases h
    obtain ⟨_, _, heq⟩ := List.mem_map.mp hmem
    cases heq

/-- A message that is sent was copied before. -/
theorem mem_applierSend {msg : ApplyMsg C D}
    (h : msg ∈ rf.applierSend.applyCh ++ rf.applierSend.applying) :
    msg ∈ rf.applyCh ++ rf.applying := by
  unfold applierSend at h
  split at h
  · exact h
  · rename_i heq
    rw [heq]
    simpa using h

/-- What an input leaves on the disk and with the applier, when its reads return
what is on the disk. -/
structure Stores (rf rf' : Raft n C D) (stored : Option (Nat × Option D)) : Prop where
  last : (rf'.lastIncludedIndex, rf'.persister.snapshot) =
    stored.getD (rf.lastIncludedIndex, rf.persister.snapshot)
  lt : ∀ new, stored = some new → rf.lastIncludedIndex < new.1
  messages : ∀ data term index, .snapshot data term index ∈ rf'.applyCh ++ rf'.applying →
    .snapshot data term index ∈ rf.applyCh ++ rf.applying ∨
      (index, data) = (rf.lastIncludedIndex, rf.persister.snapshot)

theorem Writes.stores {stored : Option (Nat × Option D)} (h : Writes rf stored rf')
    (hread : rf.persister.readSnapshot = rf.persister.snapshot) : Stores rf rf' stored := by
  refine ⟨h.snapshot_eq hread, fun new hnew => ?_, fun data term index hmem => Or.inl ?_⟩
  · subst hnew
    cases h with
    | save _ _ _ hlt => exact hlt
  · rwa [h.frame.applyCh, h.frame.applying] at hmem

theorem Reacts.stores {second : Option (Option D)} {stored : Option (Nat × Option D)}
    (h : Reacts rf second stored rf')
    (hread : rf.persister.readSnapshot = rf.persister.snapshot)
    (hsecond : rf.persister.Returns second) : Stores rf rf' stored := by
  cases h with
  | writes h => exact h.stores hread
  | election rf₁ h₁ h₂ =>
    obtain ⟨hlast₁, -, hmsgs₁⟩ := h₁.stores hread
    have hdisk : rf₁.persister.snapshot = rf.persister.snapshot := (Prod.mk.inj hlast₁).2
    have hreturns : rf₁.persister.Returns second := by
      rw [Persister.Returns, hdisk]
      exact hsecond
    obtain ⟨hlast₂, -, hmsgs₂⟩ := h₂.stores (readSnapshot_of_returns hreturns)
    refine ⟨hlast₂.trans hlast₁, by simp, fun data term index hmem => ?_⟩
    rcases hmsgs₂ data term index hmem with hold | hnew
    · exact hmsgs₁ data term index hold
    · exact Or.inr (hnew.trans hlast₁)
  | take h =>
    refine ⟨by rw [applierTake_eq h]; rfl, by simp, fun data term index hmem => ?_⟩
    rcases List.mem_append.mp hmem with hmem | hmem
    · rw [applierTake_eq h] at hmem
      exact Or.inl (List.mem_append_left _ hmem)
    · exact Or.inr ((applierTake_snapshot h hmem).trans (by rw [hread]))
  | send =>
    refine ⟨by rw [applierSend_eq]; rfl, by simp, fun data term index hmem => ?_⟩
    exact Or.inl (mem_applierSend hmem)
  | kill => exact ⟨rfl, by simp, fun data term index hmem => Or.inl hmem⟩

end Raft

/-! ## Runs -/

/-- `Intact` as an induction needs it: the last stored snapshot belongs to the
base of the log, and the messages that the applier still holds are stored too. -/
structure Kept (σ : Instance n C D) : Prop where
  last : σ.stored.getLast? = some (σ.raft.lastIncludedIndex, σ.raft.persister.snapshot)
  sorted : σ.stored.Pairwise fun a b => a.1 < b.1
  requests : ∀ args, RpcArgs.installSnapshot args ∈ σ.sent →
    (args.lastIncludedIndex, args.data) ∈ σ.stored
  messages : ∀ data term index,
    ApplyMsg.snapshot data term index ∈ σ.raft.applyCh ++ σ.raft.applying →
      (index, data) ∈ σ.stored

theorem Kept.intact {σ : Instance n C D} (h : Kept σ) : Intact σ where
  disk := by rw [h.last, Option.map_some]
  sorted := h.sorted
  requests := h.requests
  messages data term index hmem := h.messages data term index (List.mem_append_left _ hmem)

theorem kept_init (me : Fin n) (persister : Persister n C D) :
    Kept (Instance.init me persister) where
  last := by
    rw [Instance.init, Raft.make_eq]
    rfl
  sorted := List.pairwise_singleton _ _
  requests args hmem := by cases hmem
  messages data term index hmem := by
    rw [Instance.init, Raft.make_eq] at hmem
    cases hmem

/-- Storing a snapshot with a new index. -/
theorem sorted_append {stored : List (Nat × Option D)} {last : Nat × Option D}
    (hlast : stored.getLast? = some last) (hsorted : stored.Pairwise fun a b => a.1 < b.1)
    {new : Nat × Option D} (hnew : last.1 < new.1) :
    (stored ++ [new]).Pairwise fun a b => a.1 < b.1 := by
  obtain ⟨before, rfl⟩ := List.getLast?_eq_some_iff.mp hlast
  refine List.pairwise_append.mpr ⟨hsorted, List.pairwise_singleton _ _, fun a ha b hb => ?_⟩
  rw [List.mem_singleton.mp hb]
  rcases List.mem_append.mp ha with ha | ha
  · exact Nat.lt_trans ((List.pairwise_append.mp hsorted).2.2 a ha last (by simp)) hnew
  · rw [List.mem_singleton.mp ha]
    exact hnew

theorem Kept.step {σ σ' : Instance n C D} (h : Kept σ) {e : Option (Option D) × Input n C D}
    (hreads : ReadsDisk σ e) (hexec : σ.exec e = some σ') : Kept σ' := by
  obtain ⟨⟨rf', out⟩, hreact, hexec⟩ := Option.bind_eq_some_iff.mp hexec
  cases hexec
  have hread := Raft.readSnapshot_of_returns hreads.1
  have hstores := (Raft.react_reacts hreact).stores hread hreads.2
  have hlastMem := List.mem_of_getLast? h.last
  generalize hacc : (σ.raft.failRead e.1).accepted e.2 = accepted at hstores
  have hlast : (σ.stored ++ accepted.toList).getLast? =
      some (rf'.lastIncludedIndex, rf'.persister.snapshot) := by
    rw [hstores.last]
    cases accepted with
    | none => rw [Option.toList_none, List.append_nil]; exact h.last
    | some new => simp
  refine ⟨hlast, ?_, fun args hmem => ?_, fun data term index hmem => ?_⟩
  · cases accepted with
    | none => rw [Option.toList_none, List.append_nil]; exact h.sorted
    | some new => exact sorted_append h.last h.sorted (hstores.lt new rfl)
  · refine List.mem_append_left _ ?_
    rcases List.mem_append.mp hmem with hmem | hmem
    · exact h.requests args hmem
    · rw [Raft.react_sent hreact hmem, hread]
      exact hlastMem
  · refine List.mem_append_left _ ?_
    rcases hstores.messages data term index hmem with hold | hnew
    · exact h.messages data term index hold
    · rw [hnew]
      exact hlastMem

/-- While the reads return what is on the disk, snapshots stay intact. -/
theorem instance_intact_of_readsDisk {me : Fin n} {persister : Persister n C D}
    (run : InstanceRun me persister) (h : ReadsDiskRun run) (t : Nat) : Intact (run.state t) := by
  suffices hkept : Kept (run.state t) from hkept.intact
  induction t with
  | zero =>
    rw [run.start]
    exact kept_init me persister
  | succ t ih =>
    rcases h t with ⟨e, hreads, hexec⟩ | hsame
    · exact ih.step hreads hexec
    · rw [hsame]
      exact ih

/-- The same election, while `ReadSnapshot` fails but returns the snapshot. -/
def diskEvents : List (Option (Option Nat) × Input 3 Nat Nat) :=
  [(none, .request (.installSnapshot ⟨1, node1, 1, 1, some 7⟩)),
    (some (some 7), .electionTimeout none)]

/-- The run of `diskEvents`. -/
def diskRun : InstanceRun (C := Nat) (D := Nat) node0 .empty :=
  Run.ofEvents _ Instance.exec diskEvents

theorem diskRun_readsDisk : ReadsDiskRun diskRun := by
  intro t
  rcases Run.ofEvents_next (Instance.init node0 .empty) Instance.exec diskEvents t with
    ⟨e, he, hexec⟩ | hsame
  · refine Or.inl ⟨e, ?_, hexec⟩
    have hall : ∀ t < 2, ∀ e ∈ diskEvents[t]?,
        ReadsDisk (diskRun.state t) e := by decide
    exact hall t (by simpa [diskEvents] using (List.getElem?_eq_some_iff.mp he).1) e he
  · exact Or.inr hsame

/-- The snapshot is still there at the end. -/
theorem intact_diskRun : ReadsDiskRun diskRun ∧ Intact (diskRun.state 2) :=
  ⟨diskRun_readsDisk, instance_intact_of_readsDisk diskRun diskRun_readsDisk 2⟩

end KvRaft
